import DistributedWal.RaftCluster
import DistributedWal.Quorums

/-! # One leader in each term

Each member's votes go to one candidate in each term, over crashes and restarts. A
candidate that waits for its peers counts replies to its own calls, so a leader has the
votes of a majority.
-/
namespace RaftElections

open LittleEndianCodec WalSegment ReplicatedLog RaftPersistentState RaftSnapshot RaftNode
open WalEntry (Crc32 ieee)
open RaftNodeFrame RaftNodeHandlers RaftNodeVotes RaftCluster Quorums

/-- The votes that each member has given, as far as they can count. -/
abbrev Votes := NodeId → List (ℕ × NodeId)

structure NodeOk (c : Cluster) (votes : Votes) (id : NodeId) (n : Node) : Prop where
  self : n.id = id
  peers : n.peers = c.peers id
  remembers : RaftNodeVotes.Invariant (votes id) n

def ProcessOk (c : Cluster) (votes : Votes) (id : NodeId) : Process → Prop
  | .running n => NodeOk c votes id n
  | .waiting n _ => NodeOk c votes id n
  | .crashed img => Remembers (votes id) 0 (stored img.stateFile).1 (stored img.stateFile).2 ∧
      ∀ t a b, (t, a) ∈ votes id → (t, b) ∈ votes id → a = b

/-- A majority voted for `id` in term `t`. A cluster of one needs no vote on record. -/
def Wins (c : Cluster) (votes : Votes) (t : ℕ) (id : NodeId) : Prop :=
  0 < t ∧ id ∈ c.members ∧ (c.peers id = [] ∨
    (majority c.members c.members_nodup).IsQuorum {v | v ∈ c.members ∧ (t, id) ∈ votes v})

/-- The term of the last election that `id` won. -/
def lastElected (id : NodeId) (es : List Event) : Option ℕ :=
  (es.filterMap (fun e => match e with
    | .elected i t => if i = id then some t else none
    | _ => none)).getLast?

/-- The term that a process is in, or that it finds when it starts again. -/
def termOf : Process → ℕ
  | .running n => n.ps.currentTerm
  | .waiting n _ => n.ps.currentTerm
  | .crashed img => (stored img.stateFile).1

/-- A candidate waits for its own calls. -/
structure Electing (c : Cluster) (votes : Votes) (s : State) (id : NodeId) (n : Node)
    (first : ℕ) : Prop where
  role : n.role = .candidate
  term : 0 < n.ps.currentTerm
  own : Storable id → (n.ps.currentTerm, id) ∈ votes id
  calls : ∀ i p, (c.peers id)[i]? = some p → ∃ req,
    s.calls[first + i]? = some ⟨id, p, .requestVote req⟩ ∧ req.term = n.ps.currentTerm

structure Invariant (c : Cluster) (votes : Votes) (es : List Event) (s : State) : Prop where
  processes : ∀ id ∈ c.members, ProcessOk c votes id (s.processes id)
  calls : ∀ (k : ℕ) src tgt req, s.calls[k]? = some ⟨src, tgt, .requestVote req⟩ →
    src ∈ c.members ∧ tgt ∈ c.peers src ∧ req.candidateId = src
  granted : ∀ k resp, (k, .requestVote resp) ∈ s.replies → resp.voteGranted = true →
    ∃ src tgt req, s.calls[k]? = some ⟨src, tgt, .requestVote req⟩ ∧ Storable src ∧
      (req.term, src) ∈ votes tgt
  electing : ∀ id ∈ c.members, ∀ n first,
    s.processes id = .waiting n (.election first) → Electing c votes s id n first
  elected : ∀ id t, Event.elected id t ∈ es → Wins c votes t id
  leaders : ∀ id ∈ c.members, ∀ n, (s.processes id).node = some n → n.role = .leader →
    lastElected id es = some n.ps.currentTerm
  past : ∀ id ∈ c.members, ∀ t, Event.elected id t ∈ es → t ≤ termOf (s.processes id)
  fresh : ∀ id ∈ c.members, ∀ n first, s.processes id = .waiting n (.election first) →
    ∀ t, Event.elected id t ∈ es → t < n.ps.currentTerm

variable {c : Cluster} {votes : Votes} {es : List Event} {s : State}

theorem ProcessOk.unique {id : NodeId} {p : Process} (h : ProcessOk c votes id p) :
    ∀ t a b, (t, a) ∈ votes id → (t, b) ∈ votes id → a = b := by
  cases p with
  | running n => exact h.remembers.unique
  | waiting n w => exact h.remembers.unique
  | crashed img => exact h.2

theorem termOf_node {p : Process} {n : Node} (hn : p.node = some n) :
    termOf p = n.ps.currentTerm := by
  cases p <;> cases hn <;> rfl

theorem ProcessOk.node {id : NodeId} {p : Process} {n : Node} (h : ProcessOk c votes id p)
    (hn : p.node = some n) : NodeOk c votes id n := by
  cases p with
  | running m =>
    cases hn
    exact h
  | waiting m w =>
    cases hn
    exact h
  | crashed img => cases hn

theorem wins_unique (hunique : ∀ v ∈ c.members, ∀ t a b,
      (t, a) ∈ votes v → (t, b) ∈ votes v → a = b) {t : ℕ} {a b : NodeId}
    (ha : Wins c votes t a) (hb : Wins c votes t b) : a = b := by
  have halone : ∀ x y, x ∈ c.members → y ∈ c.members → c.peers x = [] → x = y := by
    intro x y hx hy hpeers
    by_contra hne
    have hmem := (c.mem_peers x hx y).mpr ⟨hy, fun h => hne h.symm⟩
    rw [hpeers] at hmem
    cases hmem
  obtain ⟨_, hma, hqa⟩ := ha
  obtain ⟨_, hmb, hqb⟩ := hb
  rcases hqa with hnone | hqa
  · exact halone a b hma hmb hnone
  · rcases hqb with hnone | hqb
    · exact (halone b a hmb hma hnone).symm
    · have hone : ∀ v x y, v ∈ c.members ∧ (t, x) ∈ votes v →
          v ∈ c.members ∧ (t, y) ∈ votes v → x = y := by
        intro v x y hx hy
        exact hunique v hx.1 t x y hx.2 hy.2
      exact (majority c.members c.members_nodup).one_winner hone hqa hqb

theorem Invariant.unique (h : Invariant c votes es s) {t : ℕ} {a b : NodeId}
    (ha : Wins c votes t a) (hb : Wins c votes t b) : a = b := by
  apply wins_unique _ ha hb
  intro v hv
  exact (h.processes v hv).unique

/-- More votes win what was won. -/
theorem Wins.mono {votes' : Votes} (hgrow : ∀ v, ∀ x ∈ votes v, x ∈ votes' v) {t : ℕ}
    {id : NodeId} (h : Wins c votes t id) : Wins c votes' t id := by
  obtain ⟨hpos, hmem, hq⟩ := h
  refine ⟨hpos, hmem, ?_⟩
  rcases hq with hnone | hq
  · exact Or.inl hnone
  · exact Or.inr (majority_mono hq (fun v hv => ⟨hv.1, hgrow v _ hv.2⟩))

theorem peers_length {id : NodeId} (hid : id ∈ c.members) :
    (c.peers id).length + 1 = c.members.length := by
  have hcons : (id :: c.peers id).Nodup := by
    rw [List.nodup_cons]
    exact ⟨fun h => ((c.mem_peers id hid id).mp h).2 rfl, c.peers_nodup id hid⟩
  have hperm : (id :: c.peers id).Perm c.members := by
    rw [List.perm_ext_iff_of_nodup hcons c.members_nodup]
    intro p
    rw [List.mem_cons, c.mem_peers id hid p]
    constructor
    · rintro (rfl | ⟨hp, _⟩)
      · exact hid
      · exact hp
    · intro hp
      by_cases h : p = id
      · exact Or.inl h
      · exact Or.inr ⟨hp, h⟩
  simpa using hperm.length_eq

theorem lastElected_append (id : NodeId) (es : List Event) (e : Event) :
    lastElected id (es ++ [e]) = match e with
      | .elected i t => if i = id then some t else lastElected id es
      | _ => lastElected id es := by
  cases e with
  | elected i t =>
    by_cases h : i = id
    · simp [lastElected, h]
    · simp [lastElected, h]
  | acknowledged i k t d => simp [lastElected]
  | served i k entries => simp [lastElected]

/-- The voters behind a list of results. -/
def voters (peers : List NodeId) (results : List (Option RequestVoteResponse)) : List NodeId :=
  ((peers.zip results).filter (fun p => p.2.any RequestVoteResponse.voteGranted)).map Prod.fst

theorem voters_length {peers : List NodeId} {results : List (Option RequestVoteResponse)}
    (hlen : results.length = peers.length) :
    (voters peers results).length =
      (results.filter (fun r => r.any RequestVoteResponse.voteGranted)).length := by
  have hsnd : (peers.zip results).map Prod.snd = results :=
    List.map_snd_zip (Nat.le_of_eq hlen)
  conv_rhs => rw [← hsnd]
  rw [voters, List.length_map, List.filter_map, List.length_map]
  rfl

theorem voters_nodup {peers : List NodeId} (hnodup : peers.Nodup)
    {results : List (Option RequestVoteResponse)} (hlen : results.length = peers.length) :
    (voters peers results).Nodup := by
  have hfst : (peers.zip results).map Prod.fst = peers :=
    List.map_fst_zip (Nat.le_of_eq hlen.symm)
  apply List.Nodup.sublist _ hnodup
  conv_rhs => rw [← hfst]
  exact List.Sublist.map Prod.fst List.filter_sublist

theorem mem_voters {peers : List NodeId} {results : List (Option RequestVoteResponse)}
    {v : NodeId} (h : v ∈ voters peers results) :
    ∃ (i : ℕ) (r : RequestVoteResponse),
      peers[i]? = some v ∧ results[i]? = some (some r) ∧ r.voteGranted = true := by
  rw [voters] at h
  obtain ⟨⟨p, r⟩, hmem, rfl⟩ := List.mem_map.mp h
  rw [List.mem_filter] at hmem
  obtain ⟨hzip, hany⟩ := hmem
  obtain ⟨i, hi⟩ := List.mem_iff_getElem?.mp hzip
  rw [List.getElem?_zip_eq_some] at hi
  cases r with
  | none => simp at hany
  | some r => exact ⟨i, r, hi.1, hi.2, by simpa using hany⟩

def Votes.with (votes : Votes) (id : NodeId) (given : Option (ℕ × NodeId)) : Votes :=
  Function.update votes id (votes id ++ given.toList)

theorem Votes.with_grow (votes : Votes) (id : NodeId) (given : Option (ℕ × NodeId)) :
    ∀ v, ∀ x ∈ votes v, x ∈ votes.with id given v := by
  intro v x hx
  by_cases h : v = id
  · subst h
    rw [Votes.with, Function.update_self]
    exact List.mem_append_left _ hx
  · rwa [Votes.with, Function.update_of_ne h]

/-- The id of a candidate whose request was delivered can be stored. -/
theorem Invariant.deliverable (h : Invariant c votes es s) {k : ℕ} {src tgt : NodeId}
    {req : RequestVoteRequest} (hcall : s.calls[k]? = some ⟨src, tgt, .requestVote req⟩)
    (hsize : (idBytes req.candidateId).length < 2 ^ 32) :
    req.candidateId = src ∧ Storable src := by
  obtain ⟨hsrc, _, hself⟩ := h.calls k src tgt req hcall
  rw [hself] at hsize
  exact ⟨hself, Storable.of_ne (c.nonempty src hsrc) hsize⟩

/-- An election that is won has a majority of votes. -/
theorem Invariant.wins (h : Invariant c votes es s) {id : NodeId} (hid : id ∈ c.members)
    {n : Node} (hn : NodeOk c votes id n) {first : ℕ}
    {results : List (Option RequestVoteResponse)} (hel : Electing c votes s id n first)
    (hlen : results.length = n.peers.length)
    (hres : Answered s first (results.map (Option.map .requestVote)))
    (hq : n.quorum ≤ 1 +
      (results.filter (fun r => r.any RequestVoteResponse.voteGranted)).length) :
    Wins c votes n.ps.currentTerm id := by
  rw [hn.peers] at hlen
  have hsize := peers_length hid
  have hcount := voters_length hlen
  have hquorum : n.quorum = c.members.length / 2 + 1 := by
    rw [Node.quorum, Node.clusterSize, hn.peers, hsize]
  rw [hquorum, ← hcount] at hq
  refine ⟨hel.term, hid, ?_⟩
  by_cases hnone : c.peers id = []
  · exact Or.inl hnone
  right
  -- a voter behind a granted reply has the vote on record
  have hvoter : ∀ v ∈ voters (c.peers id) results,
      v ∈ c.peers id ∧ Storable id ∧ (n.ps.currentTerm, id) ∈ votes v := by
    intro v hv
    obtain ⟨i, r, hpeer, hresult, hyes⟩ := mem_voters hv
    have hreply : (first + i, Response.requestVote r) ∈ s.replies := by
      apply hres
      rw [List.getElem?_map, hresult]
      rfl
    obtain ⟨src, tgt, req, hcall, hstorable, hvote⟩ := h.granted _ r hreply hyes
    obtain ⟨req', hcall', hterm⟩ := hel.calls i v hpeer
    rw [hcall] at hcall'
    cases hcall'
    rw [hterm] at hvote
    exact ⟨List.mem_of_getElem? hpeer, hstorable, hvote⟩
  have hsome : ∃ v, v ∈ voters (c.peers id) results := by
    apply List.exists_mem_of_length_pos
    have := List.length_pos_of_ne_nil hnone
    omega
  obtain ⟨v, hv⟩ := hsome
  have hown := hel.own (hvoter v hv).2.1
  have hnot : id ∉ voters (c.peers id) results := fun hmem =>
    ((c.mem_peers id hid id).mp (hvoter id hmem).1).2 rfl
  have hnodup : (id :: voters (c.peers id) results).Nodup := by
    rw [List.nodup_cons]
    exact ⟨hnot, voters_nodup (c.peers_nodup id hid) hlen⟩
  apply majority_of_list hnodup
  · intro w hw
    rcases List.mem_cons.mp hw with rfl | hw
    · exact hid
    · exact ((c.mem_peers id hid w).mp (hvoter w hw).1).1
  · rw [List.length_cons]
    omega
  · intro w hw
    rcases List.mem_cons.mp hw with rfl | hw
    · exact ⟨hid, hown⟩
    · exact ⟨((c.mem_peers id hid w).mp (hvoter w hw).1).1, (hvoter w hw).2.2⟩

theorem Electing.grow {id : NodeId} {n : Node} {first : ℕ} {s' : State} {votes' : Votes}
    (h : Electing c votes s id n first) (hgrow : ∀ v, ∀ x ∈ votes v, x ∈ votes' v)
    (hcalls : ∀ (k : ℕ) call, s.calls[k]? = some call → s'.calls[k]? = some call) :
    Electing c votes' s' id n first := by
  refine ⟨h.role, h.term, fun hs => hgrow id _ (h.own hs), ?_⟩
  intro i p hp
  obtain ⟨req, hcall, hterm⟩ := h.calls i p hp
  exact ⟨req, hcalls _ _ hcall, hterm⟩

/-- A process crashes or starts again: the calls, replies and votes stay. -/
theorem Invariant.set (h : Invariant c votes es s) {id : NodeId} {p : Process}
    (hp : ProcessOk c votes id p) (hrole : ∀ m, p.node = some m → m.role = .follower)
    (hidle : ∀ m w, p ≠ .waiting m w) (hterm : termOf (s.processes id) ≤ termOf p) :
    Invariant c votes es (s.set id p) := by
  refine ⟨?_, h.calls, h.granted, ?_, h.elected, ?_, ?_, ?_⟩
  · intro i hi
    by_cases hne : i = id
    · subst hne
      rw [State.set_self]
      exact hp
    · rw [State.set_of_ne _ _ hne]
      exact h.processes i hi
  · intro i hi m first hm
    by_cases hne : i = id
    · subst hne
      rw [State.set_self] at hm
      exact absurd hm (hidle m _)
    · rw [State.set_of_ne _ _ hne] at hm
      exact (h.electing i hi m first hm).grow (fun _ _ hx => hx) (fun _ _ hx => hx)
  · intro i hi m hm hlead
    by_cases hne : i = id
    · subst hne
      rw [State.set_self] at hm
      rw [hrole m hm] at hlead
      cases hlead
    · rw [State.set_of_ne _ _ hne] at hm
      exact h.leaders i hi m hm hlead
  · intro i hi t ht
    by_cases hne : i = id
    · subst hne
      rw [State.set_self]
      exact (h.past i hi t ht).trans hterm
    · rw [State.set_of_ne _ _ hne]
      exact h.past i hi t ht
  · intro i hi m first hm
    by_cases hne : i = id
    · subst hne
      rw [State.set_self] at hm
      exact absurd hm (hidle m _)
    · rw [State.set_of_ne _ _ hne] at hm
      exact h.fresh i hi m first hm

section

variable [Crc32]

/-- The vote of an action that counts: an own id that the file cannot hold does not. -/
def counted (n : Node) (a : Action) : Option (ℕ × NodeId) :=
  match a with
  | .startElection => if Storable n.id then voteGiven n a else none
  | _ => voteGiven n a

theorem Invariant.after (h : Invariant c votes es s) {id : NodeId} {n : Node} {a : Action}
    {o : Outcome} (hact : Act s id n a o) (hn : NodeOk c votes id n) (hb : Bounded n a) :
    After (votes id) n.ps.currentTerm (counted n a) (n.act a) := by
  cases hact with
  | requestVote hup hcall hsize =>
    obtain ⟨hself, hstorable⟩ := h.deliverable hcall hsize
    exact after_requestVote hn.remembers hb (fun _ => hself ▸ hstorable)
  | startElection hup hrole =>
    apply after_startElection hn.remembers hb
    intro v hv
    rw [counted] at hv
    split at hv
    · rename_i hid
      cases hv
      exact ⟨rfl, hid⟩
    · cases hv
  | appendEntries => exact after_act hn.remembers hb trivial
  | installSnapshot => exact after_act hn.remembers hb trivial
  | finishElection => exact after_act hn.remembers hb trivial
  | writeRefused => exact after_act hn.remembers hb trivial
  | writeStarted => exact after_act hn.remembers hb trivial
  | finishWrite => exact after_act hn.remembers hb trivial
  | sendHeartbeats => exact after_act hn.remembers hb trivial
  | finishHeartbeats => exact after_act hn.remembers hb trivial
  | clientRead => exact after_act hn.remembers hb trivial

section

variable {id : NodeId} {n : Node} {a : Action} {o : Outcome}

theorem Invariant.act_processes (h : Invariant c votes es s) (hact : Act s id n a o)
    (hn : NodeOk c votes id n) (hb : Bounded n a) :
    ∀ i ∈ c.members, ProcessOk c (votes.with id (counted n a)) i
      ((s.after id (n.act a) o).processes i) := by
  intro i hi
  by_cases hne : i = id
  · subst hne
    have hafter := h.after hact hn hb
    obtain ⟨hself, hpeers⟩ := act_identity n a
    have hok : NodeOk c (votes.with i (counted n a)) i (n.act a) := by
      refine ⟨hself.trans hn.self, hpeers.trans hn.peers, ?_⟩
      rw [Votes.with, Function.update_self]
      exact hafter.invariant hn.remembers
    rw [State.after_self]
    cases o.waiting with
    | none => exact hok
    | some w => exact hok
  · have hsame : votes.with id (counted n a) i = votes i := by
      rw [Votes.with, Function.update_of_ne hne]
    have hold := h.processes i hi
    rw [State.after_of_ne _ _ _ hne]
    cases hp : s.processes i with
    | running m =>
      rw [hp] at hold
      exact ⟨hold.self, hold.peers, hsame ▸ hold.remembers⟩
    | waiting m w =>
      rw [hp] at hold
      exact ⟨hold.self, hold.peers, hsame ▸ hold.remembers⟩
    | crashed img =>
      rw [hp] at hold
      rw [ProcessOk, hsame]
      exact hold

/-- Only an election makes calls for votes. -/
theorem Act.voteCalls (hact : Act s id n a o) {call : Call} {req : RequestVoteRequest}
    (hcall : call ∈ o.calls) (hreq : call.request = .requestVote req) :
    a = .startElection ∧ ∃ p ∈ n.peers, call = ⟨id, p, .requestVote n.begin.startElection.1⟩ := by
  cases hact with
  | startElection hup hrole =>
    obtain ⟨p, hp, rfl⟩ := List.mem_map.mp hcall
    exact ⟨rfl, p, hp, rfl⟩
  | writeStarted hup hwrite =>
    simp only [writeCalls, List.mem_append, List.mem_map] at hcall
    rcases hcall with ⟨p, _, rfl⟩ | ⟨p, _, rfl⟩ <;> cases hreq
  | sendHeartbeats hup hrole =>
    obtain ⟨p, _, rfl⟩ := List.mem_map.mp hcall
    cases hreq
  | requestVote => cases hcall
  | appendEntries => cases hcall
  | installSnapshot => cases hcall
  | finishElection => cases hcall
  | writeRefused => cases hcall
  | finishWrite => cases hcall
  | finishHeartbeats => cases hcall
  | clientRead => cases hcall

theorem Invariant.act_calls (h : Invariant c votes es s) (hid : id ∈ c.members)
    (hact : Act s id n a o) (hn : NodeOk c votes id n) :
    ∀ (k : ℕ) src tgt req,
      (s.after id (n.act a) o).calls[k]? = some ⟨src, tgt, .requestVote req⟩ →
      src ∈ c.members ∧ tgt ∈ c.peers src ∧ req.candidateId = src := by
  intro k src tgt req hcall
  rw [State.after_calls, List.getElem?_append] at hcall
  split at hcall
  · exact h.calls k src tgt req hcall
  · obtain ⟨_, p, hp, heq⟩ := Act.voteCalls hact (List.mem_of_getElem? hcall) rfl
    cases heq
    refine ⟨hid, hn.peers ▸ hp, ?_⟩
    exact hn.self

theorem Invariant.act_granted (h : Invariant c votes es s) (hact : Act s id n a o) :
    ∀ k resp, (k, .requestVote resp) ∈ (s.after id (n.act a) o).replies →
      resp.voteGranted = true →
      ∃ src tgt req, (s.after id (n.act a) o).calls[k]? = some ⟨src, tgt, .requestVote req⟩ ∧
        Storable src ∧ (req.term, src) ∈ votes.with id (counted n a) tgt := by
  intro k resp hreply hyes
  have hgrow := votes.with_grow id (counted n a)
  rw [State.after_replies, List.mem_append] at hreply
  rcases hreply with hreply | hreply
  · obtain ⟨src, tgt, req, hcall, hstorable, hvote⟩ := h.granted k resp hreply hyes
    exact ⟨src, tgt, req, getElem?_grow hcall, hstorable, hgrow tgt _ hvote⟩
  · cases hact with
    | requestVote hup hcall hsize =>
      obtain ⟨hself, hstorable⟩ := h.deliverable hcall hsize
      obtain ⟨rfl, heq⟩ := Prod.mk.inj (List.mem_singleton.mp hreply)
      cases heq
      refine ⟨_, _, _, getElem?_grow hcall, hstorable, ?_⟩
      rw [Votes.with, Function.update_self]
      simp [counted, voteGiven, hyes, hself]
    | appendEntries => simp at hreply
    | installSnapshot => simp at hreply
    | startElection => cases hreply
    | finishElection => cases hreply
    | writeRefused => cases hreply
    | writeStarted => cases hreply
    | finishWrite => cases hreply
    | sendHeartbeats => cases hreply
    | finishHeartbeats => cases hreply
    | clientRead => cases hreply

theorem Invariant.act_electing (h : Invariant c votes es s) (hact : Act s id n a o)
    (hn : NodeOk c votes id n) :
    ∀ i ∈ c.members, ∀ m first,
      (s.after id (n.act a) o).processes i = .waiting m (.election first) →
      Electing c (votes.with id (counted n a)) (s.after id (n.act a) o) i m first := by
  intro i hi m first hp
  by_cases hne : i = id
  · subst hne
    rw [State.after_self] at hp
    cases hact with
    | startElection hup hrole =>
      cases hp
      refine ⟨rfl, Nat.succ_pos _, ?_, ?_⟩
      · intro hs
        rw [Votes.with, Function.update_self]
        simp [counted, voteGiven, hn.self, hs]
        right
        rfl
      · intro k p hpeer
        refine ⟨n.begin.startElection.1, ?_, rfl⟩
        rw [State.after_calls, List.getElem?_append_right (Nat.le_add_right _ _),
          Nat.add_sub_cancel_left, List.getElem?_map, hn.peers, hpeer]
        rfl
    | requestVote => cases hp
    | appendEntries => cases hp
    | installSnapshot => cases hp
    | finishElection => cases hp
    | writeRefused => cases hp
    | writeStarted => cases hp
    | finishWrite => cases hp
    | sendHeartbeats => cases hp
    | finishHeartbeats => cases hp
    | clientRead => cases hp
  · rw [State.after_of_ne _ _ _ hne] at hp
    exact (h.electing i hi m first hp).grow (votes.with_grow _ _)
      (fun _ _ => getElem?_grow)

/-- Only the end of an election elects. -/
theorem Act.elected (hact : Act s id n a o) {i : NodeId} {t : ℕ}
    (hev : o.event = some (.elected i t)) :
    (∃ first, s.processes id = .waiting n (.election first)) ∧ (n.act a).role = .leader := by
  cases hact with
  | finishElection hup hlen hres =>
    refine ⟨⟨_, hup⟩, ?_⟩
    by_contra hrole
    have hrole : ¬ (n.begin.finishElection _).role = .leader := hrole
    dsimp only at hev
    rw [if_neg hrole] at hev
    cases hev
  | finishWrite =>
    dsimp only at hev
    split at hev <;> cases hev
  | requestVote => cases hev
  | appendEntries => cases hev
  | installSnapshot => cases hev
  | startElection => cases hev
  | writeRefused => cases hev
  | writeStarted => cases hev
  | sendHeartbeats => cases hev
  | finishHeartbeats => cases hev
  | clientRead => cases hev

/-- A leader after an action led before it or has just been elected. -/
theorem Invariant.act_role (h : Invariant c votes es s) (hid : id ∈ c.members)
    (hact : Act s id n a o) (hn : NodeOk c votes id n) (hlead : (n.act a).role = .leader) :
    (n.act a).ps.currentTerm = n.ps.currentTerm ∧
      (n.role = .leader ∧ (∀ i t, o.event ≠ some (.elected i t)) ∨
        o.event = some (.elected id n.ps.currentTerm) ∧ Wins c votes n.ps.currentTerm id) := by
  rcases act_leader hlead with ⟨hrole, hterm⟩ | ⟨results, rfl, hn', hq⟩
  · refine ⟨hterm, Or.inl ⟨hrole, ?_⟩⟩
    intro i t hev
    obtain ⟨⟨first, hup⟩, _⟩ := Act.elected hact hev
    have hcandidate := (h.electing id hid n first hup).role
    rw [hrole] at hcandidate
    cases hcandidate
  · cases hact with
    | finishElection hup hlen hres =>
      have hnow : n.begin.finishElection results = n.begin.becomeLeader := hn'
      have hwins := h.wins hid hn (h.electing id hid n _ hup) hlen hres hq
      rw [hn']
      refine ⟨rfl, Or.inr ⟨?_, hwins⟩⟩
      dsimp only
      rw [hnow]
      exact if_pos rfl

theorem Invariant.act_elected (h : Invariant c votes es s) (hid : id ∈ c.members)
    (hact : Act s id n a o) (hn : NodeOk c votes id n) :
    ∀ i t, Event.elected i t ∈ es ++ o.event.toList →
      Wins c (votes.with id (counted n a)) t i := by
  intro i t hmem
  apply Wins.mono (votes.with_grow _ _)
  rcases List.mem_append.mp hmem with hmem | hmem
  · exact h.elected i t hmem
  have hev : o.event = some (.elected i t) := Option.mem_toList.mp hmem
  obtain ⟨_, hlead⟩ := Act.elected hact hev
  rcases h.act_role hid hact hn hlead with ⟨_, ⟨_, hnone⟩ | ⟨hsome, hwins⟩⟩
  · exact absurd hev (hnone i t)
  · rw [hsome] at hev
    cases hev
    exact hwins

theorem Invariant.act_leaders (h : Invariant c votes es s) (hid : id ∈ c.members)
    (hact : Act s id n a o) (hn : NodeOk c votes id n) :
    ∀ i ∈ c.members, ∀ m, ((s.after id (n.act a) o).processes i).node = some m →
      m.role = .leader → lastElected i (es ++ o.event.toList) = some m.ps.currentTerm := by
  intro i hi m hm hlead
  by_cases hne : i = id
  · subst hne
    rw [State.after_self, Process.up_node] at hm
    cases hm
    obtain ⟨hterm, ⟨hrole, hnone⟩ | ⟨hsome, _⟩⟩ := h.act_role hid hact hn hlead
    · have hold := h.leaders i hid n (Act.node hact) hrole
      rw [hterm, ← hold]
      cases he : o.event with
      | none => rw [Option.toList_none, List.append_nil]
      | some e =>
        rw [Option.toList_some, lastElected_append]
        cases e with
        | elected j t => exact absurd he (hnone j t)
        | acknowledged => rfl
        | served => rfl
    · rw [hsome, Option.toList_some, lastElected_append, hterm]
      exact if_pos rfl
  · rw [State.after_of_ne _ _ _ hne] at hm
    have hold := h.leaders i hi m hm hlead
    rw [← hold]
    cases he : o.event with
    | none => rw [Option.toList_none, List.append_nil]
    | some e =>
      rw [Option.toList_some, lastElected_append]
      cases e with
      | elected j t =>
        -- whoever was elected is the one that acted
        obtain ⟨_, hl⟩ := Act.elected hact he
        rcases h.act_role hid hact hn hl with ⟨_, ⟨_, hnone⟩ | ⟨hsome, _⟩⟩
        · exact absurd he (hnone j t)
        · rw [he] at hsome
          cases hsome
          exact if_neg (fun heq => hne heq.symm)
      | acknowledged => rfl
      | served => rfl

/-- The events of an action that tell of an election tell of the node that acts. -/
theorem Invariant.act_event (h : Invariant c votes es s) (hid : id ∈ c.members)
    (hact : Act s id n a o) (hn : NodeOk c votes id n) {i : NodeId} {t : ℕ}
    (hmem : Event.elected i t ∈ es ++ o.event.toList) :
    Event.elected i t ∈ es ∨
      i = id ∧ t = n.ps.currentTerm ∧ (n.act a).ps.currentTerm = n.ps.currentTerm ∧
        o.waiting = none := by
  rcases List.mem_append.mp hmem with hmem | hmem
  · exact Or.inl hmem
  · right
    have hev : o.event = some (.elected i t) := Option.mem_toList.mp hmem
    obtain ⟨⟨first, hup⟩, hlead⟩ := Act.elected hact hev
    obtain ⟨hterm, ⟨_, hnone⟩ | ⟨hsome, _⟩⟩ := h.act_role hid hact hn hlead
    · exact absurd hev (hnone i t)
    · rw [hsome] at hev
      cases hev
      refine ⟨rfl, rfl, hterm, ?_⟩
      cases hact <;> first | rfl | cases hsome

theorem Invariant.act_past (h : Invariant c votes es s) (hid : id ∈ c.members)
    (hact : Act s id n a o) (hn : NodeOk c votes id n) (hb : Bounded n a) :
    ∀ i ∈ c.members, ∀ t, Event.elected i t ∈ es ++ o.event.toList →
      t ≤ termOf ((s.after id (n.act a) o).processes i) := by
  intro i hi t hmem
  by_cases hne : i = id
  · subst hne
    rw [State.after_self, termOf_node (Process.up_node _ _)]
    rcases h.act_event hid hact hn hmem with hmem | ⟨_, rfl, hterm, _⟩
    · have hold := h.past i hi t hmem
      rw [termOf_node (Act.node hact)] at hold
      exact hold.trans (h.after hact hn hb).keeps.now.1
    · exact Nat.le_of_eq hterm.symm
  · rw [State.after_of_ne _ _ _ hne]
    rcases h.act_event hid hact hn hmem with hmem | ⟨rfl, _⟩
    · exact h.past i hi t hmem
    · exact absurd rfl hne

theorem Invariant.act_fresh (h : Invariant c votes es s) (hid : id ∈ c.members)
    (hact : Act s id n a o) (hn : NodeOk c votes id n) :
    ∀ i ∈ c.members, ∀ m first,
      (s.after id (n.act a) o).processes i = .waiting m (.election first) →
      ∀ t, Event.elected i t ∈ es ++ o.event.toList → t < m.ps.currentTerm := by
  intro i hi m first hp t hmem
  by_cases hne : i = id
  · subst hne
    rw [State.after_self] at hp
    rcases h.act_event hid hact hn hmem with hmem | ⟨_, _, _, hidle⟩
    · have hold := h.past i hi t hmem
      rw [termOf_node (Act.node hact)] at hold
      cases hact with
      | startElection hup hrole =>
        cases hp
        exact Nat.lt_succ_of_le hold
      | requestVote => cases hp
      | appendEntries => cases hp
      | installSnapshot => cases hp
      | finishElection => cases hp
      | writeRefused => cases hp
      | writeStarted => cases hp
      | finishWrite => cases hp
      | sendHeartbeats => cases hp
      | finishHeartbeats => cases hp
      | clientRead => cases hp
    · rw [hidle] at hp
      cases hp
  · rw [State.after_of_ne _ _ _ hne] at hp
    rcases h.act_event hid hact hn hmem with hmem | ⟨rfl, _⟩
    · exact h.fresh i hi m first hp t hmem
    · exact absurd rfl hne

theorem Invariant.act (h : Invariant c votes es s) (hid : id ∈ c.members)
    (hact : Act s id n a o) (hb : Bounded n a) :
    Invariant c (votes.with id (counted n a)) (es ++ o.event.toList)
      (s.after id (n.act a) o) := by
  have hn := (h.processes id hid).node (Act.node hact)
  constructor
  · exact h.act_processes hact hn hb
  · exact h.act_calls hid hact hn
  · exact h.act_granted hact
  · exact h.act_electing hact hn
  · exact h.act_elected hid hact hn
  · exact h.act_leaders hid hact hn
  · exact h.act_past hid hact hn hb
  · exact h.act_fresh hid hact hn

theorem Invariant.step (h : Invariant c votes es s) {ok : Conditions} {e : Option Event}
    {s' : State} (hstep : Step c ok s e s') :
    ∃ votes', Invariant c votes' (es ++ e.toList) s' := by
  cases hstep with
  | act hid hact hb hok => exact ⟨_, h.act hid hact hb⟩
  | crash hid hact hb hok himg =>
    have hn := (h.processes _ hid).node (Act.node hact)
    obtain ⟨hlow, hrest⟩ := (h.after hact hn hb).keeps.images _ himg
    refine ⟨votes, ?_⟩
    rw [Option.toList_none, List.append_nil]
    apply h.set
    · exact ⟨⟨Nat.zero_le _, hrest⟩, (h.processes _ hid).unique⟩
    · intro m hm
      cases hm
    · intro m w hm
      cases hm
    · rw [termOf_node (Act.node hact)]
      exact hlow
  | restart hid hdown hok hstart =>
    have hold := h.processes _ hid
    rw [hdown] at hold
    obtain ⟨log, _, hstarted⟩ := start_cases hstart
    obtain ⟨hinv, hlow⟩ := restart_invariant ⟨le_rfl, hold.1.2⟩ hold.2 hstart
    refine ⟨votes, ?_⟩
    rw [Option.toList_none, List.append_nil]
    apply h.set
    · exact ⟨hstarted.id, hstarted.peers, hinv⟩
    · intro m hm
      cases hm
      exact hstarted.role
    · intro m w hm
      cases hm
    · rw [hdown]
      exact hlow

theorem Invariant.start (h : Starts c s) : Invariant c (fun _ => []) [] s := by
  constructor
  · intro id hid
    obtain ⟨n, hstart, hp⟩ := h.processes id hid
    obtain ⟨log, _, hstarted⟩ := start_cases hstart
    have hfresh : Remembers [] 0 (stored none).1 (stored none).2 :=
      ⟨le_rfl, by decide, by simp⟩
    rw [hp]
    exact ⟨hstarted.id, hstarted.peers, (restart_invariant hfresh (by simp) hstart).1⟩
  · intro k src tgt req hcall
    rw [h.calls] at hcall
    simp at hcall
  · intro k resp hreply
    rw [h.replies] at hreply
    cases hreply
  · intro id hid n first hp
    obtain ⟨m, _, hp'⟩ := h.processes id hid
    rw [hp'] at hp
    cases hp
  · intro id t hmem
    cases hmem
  · intro id hid n hn hlead
    obtain ⟨m, hstart, hp⟩ := h.processes id hid
    obtain ⟨log, _, hstarted⟩ := start_cases hstart
    rw [hp] at hn
    cases hn
    rw [hstarted.role] at hlead
    cases hlead
  · intro id hid t hmem
    cases hmem
  · intro id hid n first hp t hmem
    cases hmem

end

theorem invariant_of_run {ok : Conditions} (run : ClusterRun c ok es s) :
    ∃ votes, Invariant c votes es s := by
  induction run with
  | start h => exact ⟨_, Invariant.start h⟩
  | step _ hstep ih =>
    obtain ⟨votes, h⟩ := ih
    exact h.step hstep

/-- Nobody was elected before in the term of an election. -/
theorem elected_once {ok : Conditions} (run : ClusterRun c ok es s) {id : NodeId} {t : ℕ}
    {s' : State} (hstep : Step c ok s (some (.elected id t)) s') :
    ∀ a, Event.elected a t ∉ es := by
  intro a hmem
  obtain ⟨votes, h⟩ := invariant_of_run run
  generalize he : some (Event.elected id t) = e at hstep
  cases hstep with
  | act hid hact hb hok =>
    have hn := (h.processes _ hid).node (Act.node hact)
    obtain ⟨⟨first, hup⟩, hlead⟩ := Act.elected hact he.symm
    obtain ⟨_, ⟨_, hnone⟩ | ⟨hsome, hwins⟩⟩ := h.act_role hid hact hn hlead
    · exact hnone id t he.symm
    · rw [hsome] at he
      cases he
      obtain rfl := h.unique (h.elected a _ hmem) hwins
      exact absurd (h.fresh a hid _ first hup _ hmem) (lt_irrefl _)
  | crash => cases he
  | restart => cases he

theorem leader_was_elected {ok : Conditions} (run : ClusterRun c ok es s) {id : NodeId}
    (hid : id ∈ c.members) {n : Node} (hn : (s.processes id).node = some n)
    (hrole : n.role = .leader) : Event.elected id n.ps.currentTerm ∈ es := by
  obtain ⟨votes, h⟩ := invariant_of_run run
  have hlast := List.mem_of_getLast? (h.leaders id hid n hn hrole)
  obtain ⟨e, he, heq⟩ := List.mem_filterMap.mp hlast
  cases e with
  | elected i t =>
    dsimp only at heq
    split at heq
    · rename_i hi
      cases heq
      exact hi ▸ he
    · cases heq
  | acknowledged => cases heq
  | served => cases heq

theorem elected_member {ok : Conditions} (run : ClusterRun c ok es s) {t : ℕ} {a : NodeId}
    (ha : Event.elected a t ∈ es) : 0 < t ∧ a ∈ c.members := by
  obtain ⟨votes, h⟩ := invariant_of_run run
  obtain ⟨hpos, hmem, _⟩ := h.elected a t ha
  exact ⟨hpos, hmem⟩

theorem elected_unique {ok : Conditions} (run : ClusterRun c ok es s) {t : ℕ}
    {a b : NodeId} (ha : Event.elected a t ∈ es) (hb : Event.elected b t ∈ es) : a = b := by
  obtain ⟨votes, h⟩ := invariant_of_run run
  exact h.unique (h.elected a t ha) (h.elected b t hb)

end

end RaftElections
