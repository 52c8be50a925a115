import DistributedWal.RaftClusterHints

/-! # A majority can elect a leader

From every reachable state in which more than half of the members are up, they can get a
leader that all of them follow: they give up what they wait for, the one with the best log
catches up with the terms of the others, collects their votes and sends its heartbeats.
-/
namespace RaftClusterElectability

open LittleEndianCodec WalSegment ReplicatedLog RaftPersistentState RaftSnapshot RaftNode
open WalEntry (Crc32 ieee)
open RaftNodeFrame RaftNodeHandlers RaftNodeLogs RaftNodeVotes RaftNodeMoves RaftNodeEffects
open RaftCluster RaftClusterLogs RaftClusterProgress RaftClusterWrites
open RaftNodeInstall (UpToDate)
open RaftClusterHints (onAppendEntries_currentLeader)
open RaftClusterRuns (run_steps)
open LabelledRuns

/-- No call was answered. -/
def unanswered {α : Type} (targets : List NodeId) : List (Option α) :=
  targets.map (fun _ => none)

theorem unanswered_length {α : Type} (targets : List NodeId) :
    (unanswered targets : List (Option α)).length = targets.length := List.length_map _

theorem of_mem_unanswered {α : Type} {targets : List NodeId} {r : Option α}
    (h : r ∈ unanswered targets) : r = none := by
  obtain ⟨p, _, rfl⟩ := List.mem_map.mp h
  rfl

theorem answered_unanswered {α : Type} (s : State) (first : ℕ) (targets : List NodeId)
    (f : α → Response) : Answered s first ((unanswered targets).map (Option.map f)) := by
  apply answered_silent
  intro r hr
  obtain ⟨x, hx, rfl⟩ := List.mem_map.mp hr
  rw [of_mem_unanswered hx]
  rfl

theorem finishElection_unanswered (n : Node) (targets : List NodeId) :
    (n.finishElection (unanswered targets)).ps = n.ps ∧
      (n.finishElection (unanswered targets)).log = n.log := by
  rcases finishElection_cases n (unanswered targets) with
    ⟨r, hr, _⟩ | ⟨hn, _⟩ | hn | ⟨hn, _⟩
  · cases of_mem_unanswered hr
  · rw [hn]
    exact ⟨rfl, rfl⟩
  · rw [hn]
    exact ⟨rfl, rfl⟩
  · rw [hn]
    exact ⟨rfl, rfl⟩

theorem finishHeartbeats_unanswered (n : Node) (targets : List NodeId) :
    n.finishHeartbeats (unanswered targets) = n := by
  rcases finishHeartbeats_cases n (unanswered targets) with hn | ⟨r, hr, _⟩
  · exact hn
  · cases of_mem_unanswered hr

/-- A peer in a later term deposes the leader. -/
theorem finishHeartbeats_deposed {n : Node} {b : NodeId} {r : AppendEntriesResponse}
    {targets : List NodeId} (hb : b ∈ targets) (hterm : n.ps.currentTerm < r.term) :
    n.finishHeartbeats ((onlyFrom b r targets).map Prod.snd) = n.stepDown r.term := by
  induction targets with
  | nil => exact absurd hb List.not_mem_nil
  | cons p targets ih =>
    rw [onlyFrom, List.map_cons, List.map_cons, ← onlyFrom]
    dsimp only
    by_cases heq : p = b
    · rw [if_pos heq, Node.finishHeartbeats, if_pos hterm]
    · rw [if_neg heq, Node.finishHeartbeats]
      exact ih ((List.mem_cons.mp hb).resolve_left (fun h => heq h.symm))

section

variable [Crc32] {c : Cluster} {es : List Event} {s : State} {id a b : NodeId} {n x y : Node}

theorem finishWrite_silent (n : Node) (index : ℕ) (targets targets' : List NodeId) :
    (n.finishWrite index (silent targets) (silent targets')).2.ps = n.ps := by
  rw [Node.finishWrite, Node.finishReplication, countAppends_silent]
  dsimp only
  rw [countSnapshots_silent]
  exact (commitWrite_quiet n index 1).ps

/-- A member stops waiting: all its calls have failed. -/
theorem step_settle (hid : id ∈ c.members) {w : Waiting}
    (hup : s.processes id = .waiting n w) (hbound : n.ps.currentTerm < 2 ^ 64) :
    ∃ e s' m, Step c anything s e s' ∧ s'.processes id = .running m ∧
      m.ps.currentTerm = n.ps.currentTerm ∧ ∀ i, i ≠ id → s'.processes i = s.processes i := by
  cases w with
  | election first =>
    have hps := (finishElection_unanswered n.begin n.peers).1
    have hterm : (n.act (.finishElection (unanswered n.peers))).ps.currentTerm =
        n.ps.currentTerm := congrArg PersistentState.currentTerm hps
    refine ⟨_, _, _, .act hid (.finishElection hup (unanswered_length n.peers)
      (answered_unanswered s first _ _)) ?_ trivial, State.after_self .., hterm,
      fun i hi => State.after_of_ne s _ _ hi⟩
    rw [Bounded, hterm]
    exact hbound
  | write index data first =>
    have hps := finishWrite_silent n.begin index ((n.appendCalls index).map Prod.fst)
      ((n.snapshotCalls index).map Prod.fst)
    have hterm : (n.act (.finishWrite index (silent ((n.appendCalls index).map Prod.fst))
        (silent ((n.snapshotCalls index).map Prod.fst)))).ps.currentTerm =
        n.ps.currentTerm := congrArg PersistentState.currentTerm hps
    refine ⟨_, _, _, .act hid (.finishWrite hup (silent_targets _) (silent_targets _)
      (answered_append (answered_silent (map_silent _ _)) (answered_silent (map_silent _ _))))
      ?_ trivial, State.after_self .., hterm, fun i hi => State.after_of_ne s _ _ hi⟩
    rw [Bounded, hterm]
    exact hbound
  | heartbeats first =>
    have hact : n.act (.finishHeartbeats (unanswered n.peers)) = n.begin :=
      finishHeartbeats_unanswered n.begin n.peers
    have hterm : (n.act (.finishHeartbeats (unanswered n.peers))).ps.currentTerm =
        n.ps.currentTerm := by
      rw [hact]
      rfl
    refine ⟨_, _, _, .act hid (.finishHeartbeats hup (unanswered_length n.peers)
      (answered_unanswered s first _ _)) ?_ trivial, State.after_self .., hterm,
      fun i hi => State.after_of_ne s _ _ hi⟩
    rw [Bounded, hterm]
    exact hbound

/-- The members that are up stop waiting. -/
theorem steps_settle {t : ℕ} (ht : t < 2 ^ 64) {up : List NodeId}
    (hup : ∀ id ∈ up, id ∈ c.members ∧
      ∃ n, (s.processes id).node = some n ∧ n.ps.currentTerm ≤ t) :
    ∃ fs s', Steps (Step c anything) s fs s' ∧
      (∀ id ∈ up, ∃ m, s'.processes id = .running m ∧ m.ps.currentTerm ≤ t) ∧
      ∀ i, i ∉ up → s'.processes i = s.processes i := by
  induction up with
  | nil => exact ⟨[], s, .nil s, fun id hid => absurd hid List.not_mem_nil, fun _ _ => rfl⟩
  | cons id up ih =>
    obtain ⟨fs, s₁, k, hready, hothers⟩ := ih (fun i hi => hup i (List.mem_cons_of_mem id hi))
    obtain ⟨hid, n, hn, hterm⟩ := hup id (List.mem_cons_self ..)
    by_cases hmem : id ∈ up
    · refine ⟨fs, s₁, k, ?_, fun i hi => hothers i (fun h => hi (List.mem_cons_of_mem id h))⟩
      intro i hi
      rcases List.mem_cons.mp hi with rfl | hi
      · exact hready i hmem
      · exact hready i hi
    rw [← hothers id hmem] at hn
    cases hp : s₁.processes id with
    | running m =>
      rw [hp] at hn
      cases hn
      refine ⟨fs, s₁, k, ?_, fun i hi => hothers i (fun h => hi (List.mem_cons_of_mem id h))⟩
      intro i hi
      rcases List.mem_cons.mp hi with rfl | hi
      · exact ⟨n, hp, hterm⟩
      · exact hready i hi
    | crashed img =>
      rw [hp] at hn
      cases hn
    | waiting m w =>
      rw [hp] at hn
      cases hn
      obtain ⟨e, s₂, x, hstep, hx, hsame, hrest⟩ :=
        step_settle hid hp (Nat.lt_of_le_of_lt hterm ht)
      refine ⟨_, s₂, .snoc k hstep, ?_, ?_⟩
      · intro i hi
        by_cases heq : i = id
        · subst heq
          exact ⟨x, hx, hsame ▸ hterm⟩
        · obtain ⟨m, hm, hle⟩ := hready i ((List.mem_cons.mp hi).resolve_left heq)
          exact ⟨m, (hrest i heq).trans hm, hle⟩
      · intro i hi
        rw [hrest i (fun h => hi (h ▸ List.mem_cons_self ..))]
        exact hothers i (fun h => hi (List.mem_cons_of_mem id h))

/-- What the last steps have left of a member that ran. -/
structure Kept (s s' : State) (id : NodeId) (n m : Node) : Prop where
  before : s.processes id = .running n
  after : s'.processes id = .running m
  term : m.ps.currentTerm = n.ps.currentTerm
  log : m.log = n.log

/-- A leader learns from a heartbeat that `b` is in a later term. -/
theorem steps_deposed (run : ClusterRun c anything es s) (ha : a ∈ c.members)
    (hb : b ∈ c.peers a) (hupx : s.processes a = .running x) (hupy : s.processes b = .running y)
    (hrole : x.role = .leader) (hterm : x.ps.currentTerm < y.ps.currentTerm)
    (hbound : y.ps.currentTerm < 2 ^ 64) :
    ∃ fs s' x' y', Steps (Step c anything) s fs s' ∧ s'.processes a = .running x' ∧
      x'.role = .follower ∧ x'.ps.currentTerm = y.ps.currentTerm ∧ x'.log = x.log ∧
      Kept s s' b y y' ∧ ∀ i, i ≠ a → i ≠ b → s'.processes i = s.processes i := by
  obtain ⟨votes, hv⟩ := RaftElections.invariant_of_run run
  have hx := (hv.processes a ha).node (congrArg Process.node hupx)
  obtain ⟨hbmem, hne⟩ := (c.mem_peers a ha b).mp hb
  rw [← hx.peers] at hb
  obtain ⟨i, hi⟩ := List.mem_iff_getElem?.mp hb
  -- the heartbeat
  have hbound₁ : Bounded x .sendHeartbeats := hterm.trans hbound
  have hstep₁ : Step c anything s none _ := .act ha (.sendHeartbeats hupx hrole) hbound₁ trivial
  set s₁ := State.after s a (x.act .sendHeartbeats) _ with hs₁
  have hcall : s₁.calls[s.calls.length + i]? = some ⟨a, b, .appendEntries x.heartbeat⟩ := by
    rw [hs₁, State.after_calls, List.getElem?_append_right (Nat.le_add_right _ _),
      Nat.add_sub_cancel_left, List.getElem?_map, hi]
    rfl
  have hupy₁ : s₁.processes b = .running y := by
    rw [hs₁, State.after_of_ne _ _ _ hne]
    exact hupy
  -- its rejection
  have hstale : y.begin.onAppendEntries x.heartbeat = (y.begin.aeReject 0 0, y.begin) := by
    rw [Node.onAppendEntries]
    exact if_pos hterm
  have hreject : y.act (.appendEntries x.heartbeat) = y.begin := congrArg Prod.snd hstale
  have hbound₂ : Bounded y (.appendEntries x.heartbeat) := by
    rw [Bounded, hreject]
    exact hbound
  have hstep₂ : Step c anything s₁ none _ :=
    .act hbmem (.appendEntries hupy₁ hcall) hbound₂ trivial
  rw [hstale, hreject] at hstep₂
  set s₂ := State.after s₁ b y.begin _ with hs₂
  -- the leader steps down
  set results := (onlyFrom b (y.begin.aeReject 0 0) x.peers).map Prod.snd with hresults
  have hwait : s₂.processes a = .waiting (x.act .sendHeartbeats) (.heartbeats s.calls.length) := by
    rw [hs₂, State.after_of_ne _ _ _ hne.symm, hs₁, State.after_self]
    rfl
  have hlen : results.length = (x.act .sendHeartbeats).peers.length := by
    rw [hresults, onlyFrom, List.length_map, List.length_map]
    rfl
  have hanswered : Answered s₂ s.calls.length (results.map (Option.map .appendEntries)) := by
    rw [hresults, List.map_map]
    apply answered_onlyFrom (hx.peers ▸ c.peers_nodup a ha) hi Response.appendEntries
    exact List.mem_append_right _ (List.mem_singleton_self _)
  have hdown : (x.act .sendHeartbeats).act (.finishHeartbeats results) =
      (x.act .sendHeartbeats).begin.stepDown y.ps.currentTerm :=
    finishHeartbeats_deposed (n := (x.act .sendHeartbeats).begin) hb hterm
  have hbound₃ : Bounded (x.act .sendHeartbeats) (.finishHeartbeats results) := by
    rw [Bounded, hdown]
    exact hbound
  have hstep₃ : Step c anything s₂ none _ :=
    .act ha (.finishHeartbeats hwait hlen hanswered) hbound₃ trivial
  rw [hdown] at hstep₃
  refine ⟨_, _, _, y.begin, .cons hstep₁ (.cons hstep₂ (.one hstep₃)), State.after_self .., rfl,
    rfl, rfl, ⟨hupy, ?_, rfl, rfl⟩, ?_⟩
  · rw [State.after_of_ne _ _ _ hne, hs₂, State.after_self]
    rfl
  · intro j hja hjb
    rw [State.after_of_ne _ _ _ hja, hs₂, State.after_of_ne _ _ _ hjb, hs₁,
      State.after_of_ne _ _ _ hja]

/-- An election that nobody answers, and nobody wins with one vote. -/
theorem steps_failed_election (ha : a ∈ c.members) (hpeers : 1 ≤ x.peers.length)
    (hup : s.processes a = .running x) (hrole : x.role ≠ .leader)
    (hbound : x.ps.currentTerm + 1 < 2 ^ 64) :
    ∃ fs s' x', Steps (Step c anything) s fs s' ∧ s'.processes a = .running x' ∧
      x'.role ≠ .leader ∧ x'.ps.currentTerm = x.ps.currentTerm + 1 ∧ x'.log = x.log ∧
      x'.peers = x.peers ∧ ∀ i, i ≠ a → s'.processes i = s.processes i := by
  have hstep₁ : Step c anything s none _ :=
    .act ha (.startElection hup hrole) (a := .startElection) hbound trivial
  set m := x.act .startElection with hm
  set s₁ := State.after s a m _ with hs₁
  have hlog : m.log = x.log := rfl
  have hwait : s₁.processes a = .waiting m (.election s.calls.length) := by
    rw [hs₁, State.after_self]
    rfl
  have hlost : m.act (.finishElection (unanswered m.peers)) =
      { m.begin with role := .follower } := by
    have hcount : ∀ targets : List NodeId,
        m.begin.countVotes 1 (unanswered targets) = .ok 1 := by
      intro targets
      induction targets with
      | nil => rfl
      | cons p targets ih => exact ih
    have hquorum : ¬ 1 ≥ m.begin.quorum := by
      show ¬ 1 ≥ (x.peers.length + 1) / 2 + 1
      omega
    show m.begin.finishElection (unanswered m.peers) = _
    have hcandidate : ¬ m.begin.role ≠ .candidate := not_not.mpr rfl
    rw [Node.finishElection, hcount]
    dsimp only
    rw [if_neg hcandidate, if_neg hquorum]
  have hbound₂ : Bounded m (.finishElection (unanswered m.peers)) := by
    rw [Bounded, hlost]
    exact hbound
  have hstep₂ : Step c anything s₁ _ _ := .act ha (.finishElection hwait
    (unanswered_length m.peers) (answered_unanswered s₁ _ _ _)) hbound₂ trivial
  rw [hlost] at hstep₂
  refine ⟨_, _, _, .cons hstep₁ (.one hstep₂), State.after_self .., ?_, rfl, hlog, rfl, ?_⟩
  · exact fun h => by cases h
  · intro i hi
    rw [State.after_of_ne _ _ _ hi, hs₁, State.after_of_ne _ _ _ hi]

/-- With elections that nobody answers a member comes to any later term. -/
theorem steps_raise (ha : a ∈ c.members) (hpeers : 1 ≤ x.peers.length)
    (hup : s.processes a = .running x) (hrole : x.role ≠ .leader) (d : ℕ)
    (hbound : x.ps.currentTerm + d < 2 ^ 64) :
    ∃ fs s' x', Steps (Step c anything) s fs s' ∧ s'.processes a = .running x' ∧
      x'.role ≠ .leader ∧ x'.ps.currentTerm = x.ps.currentTerm + d ∧ x'.log = x.log ∧
      ∀ i, i ≠ a → s'.processes i = s.processes i := by
  induction d generalizing s x with
  | zero => exact ⟨[], s, x, .nil s, hup, hrole, rfl, rfl, fun _ _ => rfl⟩
  | succ d ih =>
    obtain ⟨fs, s₁, x₁, k, hup₁, hrole₁, hterm₁, hlog₁, hpeers₁, hothers₁⟩ :=
      steps_failed_election ha hpeers hup hrole (by omega)
    obtain ⟨gs, s', x', k', hup', hrole', hterm', hlog', hothers'⟩ :=
      ih (hpeers₁ ▸ hpeers) hup₁ hrole₁ (by omega)
    refine ⟨fs ++ gs, s', x', k.trans k', hup', hrole', by omega, hlog'.trans hlog₁, ?_⟩
    intro i hi
    rw [hothers' i hi, hothers₁ i hi]

/-- The member runs in a term before the candidate's, with a log that is not better. -/
structure Voter (s : State) (req : RequestVoteRequest) (w : LogView) (v : NodeId) : Prop where
  votes : ∃ y, s.processes v = .running y ∧ y.ps.currentTerm < req.term ∧
    UpToDate y.log.lastTerm y.log.lastIndex w

theorem step_vote (hb : b ∈ c.members) {req : RequestVoteRequest} {w : LogView}
    (hv : Voter s req w b) (hreq : req.lastLogTerm = w.lastTerm ∧ req.lastLogIndex = w.lastIndex)
    (hbound : req.term < 2 ^ 64) (hsize : (idBytes req.candidateId).length < 2 ^ 32) {k : ℕ}
    (hcall : s.calls[k]? = some ⟨a, b, .requestVote req⟩) :
    ∃ y, y.ps.currentTerm = req.term ∧ Step c anything s none
      (s.after b y ⟨none, [], [(k, .requestVote ⟨req.term, true⟩)], none⟩) := by
  obtain ⟨y, hup, hterm, hlog⟩ := hv.votes
  obtain ⟨hvote, hcur, _⟩ := onRequestVote_granted (n := y.begin) hterm hlog hreq
  have hbound' : Bounded y (.requestVote req) := by
    rw [Bounded]
    show (y.begin.onRequestVote req).2.ps.currentTerm < 2 ^ 64
    rw [hcur]
    exact hbound
  have hstep : Step c anything s none _ :=
    .act hb (.requestVote hup hcall hsize) hbound' trivial
  rw [hvote] at hstep
  exact ⟨_, hcur, hstep⟩

/-- The calls to `peers`, numbered from `first` on, have been answered with the votes of all
of `vs`. -/
structure Polled (s s' : State) (req : RequestVoteRequest) (peers : List NodeId) (first : ℕ)
    (vs : List NodeId) : Prop where
  calls : s'.calls = s.calls
  kept : ∀ r ∈ s.replies, r ∈ s'.replies
  votes : ∀ i v, peers[i]? = some v → v ∈ vs →
    (first + i, .requestVote ⟨req.term, true⟩) ∈ s'.replies
  terms : ∀ v ∈ vs, ∃ y, s'.processes v = .running y ∧ y.ps.currentTerm = req.term
  others : ∀ i, i ∉ vs → s'.processes i = s.processes i

/-- The candidate's request reaches the voters one after the other. -/
theorem steps_poll {req : RequestVoteRequest} {w : LogView} {peers : List NodeId} {first : ℕ}
    (hreq : req.lastLogTerm = w.lastTerm ∧ req.lastLogIndex = w.lastIndex)
    (hbound : req.term < 2 ^ 64) (hsize : (idBytes req.candidateId).length < 2 ^ 32)
    (hpeers : peers.Nodup) (hcalls : ∀ i p, peers[i]? = some p →
      s.calls[first + i]? = some ⟨a, p, .requestVote req⟩) {vs : List NodeId} (hnodup : vs.Nodup)
    (hvs : ∀ v ∈ vs, v ∈ c.members ∧ v ∈ peers ∧ Voter s req w v) :
    ∃ fs s', Steps (Step c anything) s fs s' ∧ Polled s s' req peers first vs := by
  induction vs with
  | nil =>
    refine ⟨[], s, .nil s, rfl, fun _ hr => hr, ?_, ?_, fun _ _ => rfl⟩
    · exact fun i v _ hv => absurd hv List.not_mem_nil
    · exact fun v hv => absurd hv List.not_mem_nil
  | cons v vs ih =>
    obtain ⟨hv, hnodup⟩ := List.nodup_cons.mp hnodup
    obtain ⟨fs, s₁, k, hpolled⟩ := ih hnodup (fun u hu => hvs u (List.mem_cons_of_mem v hu))
    obtain ⟨hmem, hin, hvoter⟩ := hvs v (List.mem_cons_self ..)
    obtain ⟨j, hj⟩ := List.mem_iff_getElem?.mp hin
    have hcall : s₁.calls[first + j]? = some ⟨a, v, .requestVote req⟩ := by
      rw [hpolled.calls]
      exact hcalls j v hj
    have hvoter₁ : Voter s₁ req w v := by
      obtain ⟨y, hup, hrest⟩ := hvoter.votes
      exact ⟨y, (hpolled.others v hv).trans hup, hrest⟩
    obtain ⟨y, hcur, hstep⟩ := step_vote hmem hvoter₁ hreq hbound hsize hcall
    refine ⟨_, _, .snoc k hstep, ?_, ?_, ?_, ?_, ?_⟩
    · rw [State.after_calls, List.append_nil]
      exact hpolled.calls
    · intro r hr
      exact List.mem_append_left _ (hpolled.kept r hr)
    · intro i u hi hu
      rcases List.mem_cons.mp hu with rfl | hu
      · -- its call has the number of its place among the peers
        have hij := (List.getElem?_inj (List.getElem?_eq_some_iff.mp hi).1 hpeers).mp
          (hi.trans hj.symm)
        rw [hij]
        exact List.mem_append_right _ (List.mem_singleton_self _)
      · exact List.mem_append_left _ (hpolled.votes i u hi hu)
    · intro u hu
      by_cases heq : u = v
      · subst heq
        exact ⟨y, State.after_self .., hcur⟩
      · obtain ⟨z, hz, hterm⟩ := hpolled.terms u ((List.mem_cons.mp hu).resolve_left heq)
        exact ⟨z, (State.after_of_ne _ _ _ heq).trans hz, hterm⟩
    · intro i hi
      rw [State.after_of_ne _ _ _ (fun h => hi (List.mem_cons.mpr (Or.inl h)))]
      exact hpolled.others i (fun h => hi (List.mem_cons_of_mem v h))

omit [Crc32] in
/-- Counting the votes of a part of the peers. -/
theorem granted_length (vs : List NodeId) (t : ℕ) (peers : List NodeId) :
    ((peers.map (fun p => if p ∈ vs then some (⟨t, true⟩ : RequestVoteResponse) else none)).filter
      (fun r => r.any RequestVoteResponse.voteGranted)).length =
      (peers.filter (fun p => p ∈ vs)).length := by
  induction peers with
  | nil => rfl
  | cons p peers ih =>
    rw [List.map_cons, List.filter_cons, List.filter_cons]
    by_cases hp : p ∈ vs
    · simpa [hp] using ih
    · simpa [hp] using ih

/-- A candidate whose log is at least as good as the logs of a majority wins their votes. -/
theorem steps_elected (run : ClusterRun c anything es s) (ha : a ∈ c.members)
    (hsize : (idBytes a).length < 2 ^ 32) (hup : s.processes a = .running x)
    (hrole : x.role ≠ .leader) (hbound : x.ps.currentTerm + 1 < 2 ^ 64) {vs : List NodeId}
    (hnodup : vs.Nodup) (hmajority : c.members.length < 2 * (vs.length + 1))
    (hvs : ∀ v ∈ vs, v ∈ c.members ∧ v ≠ a ∧ ∃ y, s.processes v = .running y ∧
      y.ps.currentTerm ≤ x.ps.currentTerm ∧
      UpToDate y.log.lastTerm y.log.lastIndex x.log.toLogView) :
    ∃ fs s' n, Steps (Step c anything) s fs s' ∧ s'.processes a = .running n ∧
      n.role = .leader ∧ n.ps.currentTerm = x.ps.currentTerm + 1 ∧
      ∀ v ∈ vs, ∃ m, s'.processes v = .running m ∧ m.ps.currentTerm = x.ps.currentTerm + 1 := by
  obtain ⟨votes, hv⟩ := RaftElections.invariant_of_run run
  have hx := (hv.processes a ha).node (congrArg Process.node hup)
  have hstep₁ : Step c anything s none _ :=
    .act ha (.startElection hup hrole) (a := .startElection) hbound trivial
  set m := x.act .startElection with hm
  set req := x.begin.startElection.1 with hreq
  set s₁ := State.after s a m _ with hs₁
  have hself : req.candidateId = a := hx.self
  have hcalls : ∀ i p, (c.peers a)[i]? = some p →
      s₁.calls[s.calls.length + i]? = some ⟨a, p, .requestVote req⟩ := by
    intro i p hp
    rw [← hx.peers] at hp
    rw [hs₁, State.after_calls, List.getElem?_append_right (Nat.le_add_right _ _),
      Nat.add_sub_cancel_left, List.getElem?_map, hp]
    rfl
  have hvoters : ∀ v ∈ vs, v ∈ c.members ∧ v ∈ c.peers a ∧
      Voter s₁ req x.log.toLogView v := by
    intro v hmem
    obtain ⟨hv, hne, y, hy, hterm, hlog⟩ := hvs v hmem
    refine ⟨hv, (c.mem_peers a ha v).mpr ⟨hv, hne⟩, ⟨y, ?_, Nat.lt_succ_of_le hterm, hlog⟩⟩
    rw [hs₁, State.after_of_ne _ _ _ hne]
    exact hy
  obtain ⟨fs, s₂, k, hpolled⟩ := steps_poll ⟨rfl, rfl⟩ hbound (by rw [hself]; exact hsize)
    (c.peers_nodup a ha) hcalls hnodup hvoters
  have hout : a ∉ vs := fun hmem => (hvs a hmem).2.1 rfl
  have hwait : s₂.processes a = .waiting m (.election s.calls.length) := by
    rw [hpolled.others a hout, hs₁, State.after_self]
    rfl
  set results := (c.peers a).map
    (fun p => if p ∈ vs then some (⟨req.term, true⟩ : RequestVoteResponse) else none) with hresults
  have hanswered : Answered s₂ s.calls.length (results.map (Option.map .requestVote)) := by
    intro i resp hresp
    rw [hresults, List.map_map, List.getElem?_map] at hresp
    obtain ⟨p, hp, heq⟩ := Option.map_eq_some_iff.mp hresp
    dsimp only [Function.comp] at heq
    split at heq
    · rename_i hin
      cases heq
      exact hpolled.votes i p hp hin
    · cases heq
  have hcount : m.begin.quorum ≤ 1 +
      (results.filter (fun r => r.any RequestVoteResponse.voteGranted)).length := by
    have hperm : ((c.peers a).filter (fun p => p ∈ vs)).Perm vs := by
      rw [List.perm_ext_iff_of_nodup ((c.peers_nodup a ha).filter _) hnodup]
      intro p
      rw [List.mem_filter, decide_eq_true_eq]
      exact ⟨fun h => h.2, fun h => ⟨(hvoters p h).2.1, h⟩⟩
    rw [granted_length, hperm.length_eq]
    have hlen := RaftElections.peers_length ha
    show (x.peers.length + 1) / 2 + 1 ≤ _
    rw [hx.peers, hlen]
    omega
  have hwon : m.act (.finishElection results) = m.begin.becomeLeader := by
    apply finishElection_won (n := m.begin) rfl ?_ hcount
    intro r hr
    obtain ⟨p, _, hp⟩ := List.mem_map.mp hr
    split at hp
    · cases hp
      exact le_rfl
    · cases hp
  have hbound₂ : Bounded m (.finishElection results) := by
    rw [Bounded, hwon]
    exact hbound
  have hlen : results.length = m.peers.length := by
    rw [hresults, List.length_map, ← hx.peers]
    rfl
  have hstep₂ : Step c anything s₂ _ _ :=
    .act ha (.finishElection hwait hlen hanswered) hbound₂ trivial
  rw [hwon] at hstep₂
  refine ⟨_, _, _, .snoc (.cons hstep₁ k) hstep₂, State.after_self .., rfl, rfl, ?_⟩
  intro v hmem
  obtain ⟨y, hy, hterm⟩ := hpolled.terms v hmem
  exact ⟨y, (State.after_of_ne _ _ _ (hvs v hmem).2.1).trans hy, hterm⟩

/-- All of `up` run in terms up to `t`, with logs that are not better than `w`. -/
def Behind (s : State) (up : List NodeId) (t : ℕ) (w : LogView) : Prop :=
  ∀ v ∈ up, ∃ y, s.processes v = .running y ∧ y.ps.currentTerm ≤ t ∧
    UpToDate y.log.lastTerm y.log.lastIndex w

omit [Crc32] in
theorem UpToDate.trans {t i : ℕ} {v w : LogView} (h : UpToDate t i v)
    (k : UpToDate v.lastTerm v.lastIndex w) : UpToDate t i w := by
  rcases h with hlt | ⟨rfl, hle⟩
  · rcases k with hlt' | ⟨heq, _⟩
    · exact Or.inl (hlt.trans hlt')
    · exact Or.inl (heq ▸ hlt)
  · rcases k with hlt' | ⟨heq, hle'⟩
    · exact Or.inl hlt'
    · exact Or.inr ⟨heq, hle.trans hle'⟩

omit [Crc32] in
theorem UpToDate.total (v w : LogView) :
    UpToDate v.lastTerm v.lastIndex w ∨ UpToDate w.lastTerm w.lastIndex v := by
  rcases Nat.lt_trichotomy v.lastTerm w.lastTerm with hlt | heq | hgt
  · exact Or.inl (Or.inl hlt)
  · rcases Nat.le_total v.lastIndex w.lastIndex with hle | hle
    · exact Or.inl (Or.inr ⟨heq, hle⟩)
    · exact Or.inr (Or.inr ⟨heq.symm, hle⟩)
  · exact Or.inr (Or.inl hgt)

omit [Crc32] in
/-- One of the logs is at least as good as all others. -/
theorem best_log {t : ℕ} {up : List NodeId} (hne : up ≠ [])
    (hready : ∀ id ∈ up, ∃ m, s.processes id = .running m ∧ m.ps.currentTerm ≤ t) :
    ∃ a ∈ up, ∃ x, s.processes a = .running x ∧ Behind s up t x.log.toLogView := by
  induction up with
  | nil => exact absurd rfl hne
  | cons id up ih =>
    obtain ⟨m, hm, hterm⟩ := hready id (List.mem_cons_self ..)
    have hself : UpToDate m.log.lastTerm m.log.lastIndex m.log.toLogView := Or.inr ⟨rfl, le_rfl⟩
    by_cases hnil : up = []
    · subst hnil
      refine ⟨id, List.mem_cons_self .., m, hm, ?_⟩
      intro v hv
      obtain rfl := List.mem_singleton.mp hv
      exact ⟨m, hm, hterm, hself⟩
    obtain ⟨a, ha, x, hx, hbehind⟩ := ih hnil (fun v hv => hready v (List.mem_cons_of_mem id hv))
    rcases UpToDate.total m.log.toLogView x.log.toLogView with hle | hle
    · refine ⟨a, List.mem_cons_of_mem id ha, x, hx, ?_⟩
      intro v hv
      rcases List.mem_cons.mp hv with rfl | hv
      · exact ⟨m, hm, hterm, hle⟩
      · exact hbehind v hv
    · refine ⟨id, List.mem_cons_self .., m, hm, ?_⟩
      intro v hv
      rcases List.mem_cons.mp hv with rfl | hv
      · exact ⟨m, hm, hterm, hself⟩
      · obtain ⟨y, hy, hyterm, hlog⟩ := hbehind v hv
        exact ⟨y, hy, hyterm, UpToDate.trans hlog hle⟩

/-- All of `up` run, and `id` leads in a term that none of them is past. -/
def Foremost (s : State) (up : List NodeId) (id : NodeId) : Prop :=
  ∃ n, s.processes id = .running n ∧ n.role = .leader ∧ n.ps.currentTerm < 2 ^ 64 ∧
    ∀ v ∈ up, ∃ m, s.processes v = .running m ∧ m.ps.currentTerm ≤ n.ps.currentTerm

/-- A member that does not lead and has the best log comes to lead. -/
theorem steps_lead (run : ClusterRun c anything es s) {up : List NodeId} (hnodup : up.Nodup)
    (hup : ∀ id ∈ up, id ∈ c.members) (hmajority : c.members.length < 2 * up.length) {t : ℕ}
    (ht : t + 1 < 2 ^ 64) (ha : a ∈ up) (hsize : (idBytes a).length < 2 ^ 32)
    (hx : s.processes a = .running x) (hrole : x.role ≠ .leader) (hterm : x.ps.currentTerm ≤ t)
    (hbehind : Behind s up t x.log.toLogView) :
    ∃ fs s', Steps (Step c anything) s fs s' ∧ Foremost s' up a := by
  have hvs : ∀ v ∈ up.erase a, v ∈ up ∧ v ≠ a := by
    intro v hv
    exact ⟨List.mem_of_mem_erase hv, fun h => hnodup.not_mem_erase (h ▸ hv)⟩
  have hlen : (up.erase a).length + 1 = up.length := List.length_erase_add_one ha
  obtain ⟨fs, s₁, y, k, hy, hyrole, hyterm, hylog, hothers⟩ : ∃ fs s₁ y,
      Steps (Step c anything) s fs s₁ ∧ s₁.processes a = .running y ∧ y.role ≠ .leader ∧
      (x.ps.currentTerm ≤ y.ps.currentTerm ∧ y.ps.currentTerm ≤ t ∧
        (up.erase a ≠ [] → y.ps.currentTerm = t)) ∧ y.log = x.log ∧
      ∀ i, i ≠ a → s₁.processes i = s.processes i := by
    by_cases hnil : up.erase a = []
    · exact ⟨[], s, x, .nil s, hx, hrole, ⟨le_rfl, hterm, fun h => absurd hnil h⟩, rfl,
        fun _ _ => rfl⟩
    · obtain ⟨votes, hv⟩ := RaftElections.invariant_of_run run
      have hpeers := ((hv.processes a (hup a ha)).node (congrArg Process.node hx)).peers
      obtain ⟨v, hv⟩ := List.exists_mem_of_ne_nil _ hnil
      have hpeer : v ∈ x.peers := by
        rw [hpeers]
        exact (c.mem_peers a (hup a ha) v).mpr ⟨hup v (hvs v hv).1, (hvs v hv).2⟩
      obtain ⟨fs, s₁, y, k, hy, hyrole, hyterm, hylog, hothers⟩ :=
        steps_raise (hup a ha) (List.length_pos_of_mem hpeer) hx hrole (t - x.ps.currentTerm)
          (by omega)
      exact ⟨fs, s₁, y, k, hy, hyrole, ⟨by omega, by omega, fun _ => by omega⟩, hylog, hothers⟩
  obtain ⟨gs, s₂, n, k', hn, hlead, hnterm, hterms⟩ := steps_elected (run_steps run k)
    (hup a ha) hsize hy hyrole (by omega) (hnodup.erase a) (by omega) (by
      intro v hv
      obtain ⟨z, hz, hzterm, hlog⟩ := hbehind v (hvs v hv).1
      refine ⟨hup v (hvs v hv).1, (hvs v hv).2, z, (hothers v (hvs v hv).2).trans hz, ?_,
        hylog ▸ hlog⟩
      rw [hyterm.2.2 (List.ne_nil_of_mem hv)]
      exact hzterm)
  refine ⟨fs ++ gs, s₂, k.trans k', n, hn, hlead, by omega, ?_⟩
  intro v hv
  by_cases heq : v = a
  · subst heq
    exact ⟨n, hn, le_rfl⟩
  · obtain ⟨m, hm, hmterm⟩ := hterms v ((List.mem_erase_of_ne heq).mpr hv)
    exact ⟨m, hm, Nat.le_of_eq (hmterm.trans hnterm.symm)⟩

/-- One of the members that are up comes to lead in a term that none of them is past. -/
theorem steps_foremost (run : ClusterRun c anything es s)
    (hsize : ∀ id ∈ c.members, (idBytes id).length < 2 ^ 32) {up : List NodeId}
    (hnodup : up.Nodup) (hmem : ∀ id ∈ up, id ∈ c.members)
    (hmajority : c.members.length < 2 * up.length) {t : ℕ} (ht : t + 1 < 2 ^ 64)
    (hready : ∀ id ∈ up, ∃ m, s.processes id = .running m ∧ m.ps.currentTerm ≤ t) :
    ∃ fs s', Steps (Step c anything) s fs s' ∧ ∃ id ∈ up, Foremost s' up id := by
  have hne : up ≠ [] := List.ne_nil_of_length_pos (by omega)
  obtain ⟨a, ha, x, hx, hbehind⟩ := best_log hne hready
  have hxterm : x.ps.currentTerm ≤ t := by
    obtain ⟨m, hm, hle⟩ := hready a ha
    rw [hx] at hm
    cases hm
    exact hle
  by_cases hrole : x.role = .leader
  · by_cases hpast : ∃ b ∈ up, ∃ y, s.processes b = .running y ∧
        x.ps.currentTerm < y.ps.currentTerm
    · -- a leader of an old term first steps down
      obtain ⟨b, hb, y, hy, hlt⟩ := hpast
      have hyterm : y.ps.currentTerm ≤ t := by
        obtain ⟨m, hm, hle⟩ := hready b hb
        rw [hy] at hm
        cases hm
        exact hle
      have hpeer : b ∈ c.peers a := by
        refine (c.mem_peers a (hmem a ha) b).mpr ⟨hmem b hb, ?_⟩
        rintro rfl
        rw [hx] at hy
        cases hy
        exact lt_irrefl _ hlt
      obtain ⟨fs, s₁, x', y', k, hx', hfollows, hxterm', hxlog, hkept, hothers⟩ :=
        steps_deposed run (hmem a ha) hpeer hx hy hrole hlt (by omega)
      have hbehind' : Behind s₁ up t x'.log.toLogView := by
        intro v hv
        rw [hxlog]
        by_cases hva : v = a
        · subst hva
          refine ⟨x', hx', by omega, ?_⟩
          rw [hxlog]
          exact Or.inr ⟨rfl, le_rfl⟩
        · obtain ⟨z, hz, hzterm, hlog⟩ := hbehind v hv
          by_cases hvb : v = b
          · subst hvb
            rw [hy] at hz
            cases hz
            refine ⟨y', hkept.after, ?_, ?_⟩
            · rw [hkept.term]
              exact hzterm
            · rw [hkept.log]
              exact hlog
          · exact ⟨z, (hothers v hva hvb).trans hz, hzterm, hlog⟩
      obtain ⟨gs, s₂, k', hleads⟩ := steps_lead (run_steps run k) hnodup hmem hmajority ht ha
        (hsize a (hmem a ha)) hx' (by rw [hfollows]; exact fun h => by cases h) (by omega) hbehind'
      exact ⟨_, s₂, k.trans k', a, ha, hleads⟩
    · refine ⟨[], s, .nil s, a, ha, x, hx, hrole, by omega, ?_⟩
      intro v hv
      obtain ⟨m, hm, _⟩ := hready v hv
      refine ⟨m, hm, ?_⟩
      by_contra hlt
      exact hpast ⟨v, hv, m, hm, Nat.not_le.mp hlt⟩
  · obtain ⟨fs, s₁, k, hleads⟩ := steps_lead run hnodup hmem hmajority ht ha
      (hsize a (hmem a ha)) hx hrole hxterm hbehind
    exact ⟨fs, s₁, k, a, ha, hleads⟩

structure Follows (m : Node) (leader : NodeId) (term : ℕ) : Prop where
  role : m.role = .follower
  leader : m.currentLeader = some leader
  term : m.ps.currentTerm = term

/-- A member that is not past the term of a heartbeat follows its leader from then on. -/
theorem step_follow (hb : b ∈ c.members) {req : AppendEntriesRequest}
    (hup : s.processes b = .running y) (hterm : y.ps.currentTerm ≤ req.term)
    (hbound : req.term < 2 ^ 64) {k : ℕ}
    (hcall : s.calls[k]? = some ⟨a, b, .appendEntries req⟩) :
    ∃ m resp, Follows m req.leaderId req.term ∧
      Step c anything s none (s.after b m ⟨none, [], [(k, resp)], none⟩) := by
  have hnot : ¬ req.term < y.begin.ps.currentTerm := Nat.not_lt.mpr hterm
  have hcur : (y.act (.appendEntries req)).ps.currentTerm = req.term :=
    (onAppendEntries_currentTerm y.begin req).trans (Nat.max_eq_right hterm)
  have hbound' : Bounded y (.appendEntries req) := by
    rw [Bounded, hcur]
    exact hbound
  refine ⟨_, _, ⟨?_, ?_, hcur⟩, .act hb (.appendEntries hup hcall) hbound' trivial⟩
  · exact (onAppendEntries_role y.begin req).trans (if_neg hnot)
  · exact (onAppendEntries_currentLeader y.begin req).trans (if_neg hnot)

/-- The heartbeat reaches the members one after the other. -/
theorem steps_follow {req : AppendEntriesRequest} (hbound : req.term < 2 ^ 64)
    {vs : List NodeId} (hnodup : vs.Nodup)
    (hvs : ∀ v ∈ vs, v ∈ c.members ∧
      (∃ k : ℕ, s.calls[k]? = some ⟨a, v, .appendEntries req⟩) ∧
      ∃ y, s.processes v = .running y ∧ y.ps.currentTerm ≤ req.term) :
    ∃ fs s', Steps (Step c anything) s fs s' ∧ s'.calls = s.calls ∧
      (∀ v ∈ vs, ∃ m, s'.processes v = .running m ∧ Follows m req.leaderId req.term) ∧
      ∀ i, i ∉ vs → s'.processes i = s.processes i := by
  induction vs with
  | nil => exact ⟨[], s, .nil s, rfl, fun v hv => absurd hv List.not_mem_nil, fun _ _ => rfl⟩
  | cons v vs ih =>
    obtain ⟨hv, hnodup⟩ := List.nodup_cons.mp hnodup
    obtain ⟨fs, s₁, k, hcalls, hfollow, hothers⟩ :=
      ih hnodup (fun u hu => hvs u (List.mem_cons_of_mem v hu))
    obtain ⟨hmem, ⟨j, hj⟩, y, hy, hterm⟩ := hvs v (List.mem_cons_self ..)
    obtain ⟨m, resp, hm, hstep⟩ :=
      step_follow hmem ((hothers v hv).trans hy) hterm hbound (hcalls.symm ▸ hj)
    refine ⟨_, _, .snoc k hstep, ?_, ?_, ?_⟩
    · rw [State.after_calls, List.append_nil]
      exact hcalls
    · intro u hu
      by_cases heq : u = v
      · subst heq
        exact ⟨m, State.after_self .., hm⟩
      · obtain ⟨z, hz, hfz⟩ := hfollow u ((List.mem_cons.mp hu).resolve_left heq)
        exact ⟨z, (State.after_of_ne _ _ _ heq).trans hz, hfz⟩
    · intro i hi
      rw [State.after_of_ne _ _ _ (fun h => hi (List.mem_cons.mpr (Or.inl h)))]
      exact hothers i (fun h => hi (List.mem_cons_of_mem v h))

/-- `id` leads, and the others of `up` follow it in its term. -/
def Leads (s : State) (up : List NodeId) (id : NodeId) : Prop :=
  ∃ n, s.processes id = .running n ∧ n.role = .leader ∧
    ∀ v ∈ up, v ≠ id → ∃ m, s.processes v = .running m ∧ Follows m id n.ps.currentTerm

/-- A round of heartbeats makes the members follow. -/
theorem steps_heartbeats (run : ClusterRun c anything es s) {up : List NodeId}
    (hnodup : up.Nodup) (hmem : ∀ id ∈ up, id ∈ c.members) (ha : a ∈ up)
    (hlead : Foremost s up a) : ∃ fs s', Steps (Step c anything) s fs s' ∧ Leads s' up a := by
  obtain ⟨n, hn, hrole, hbound, hterms⟩ := hlead
  obtain ⟨votes, hv⟩ := RaftElections.invariant_of_run run
  have hnode := (hv.processes a (hmem a ha)).node (congrArg Process.node hn)
  have hstep₁ : Step c anything s none _ :=
    .act (hmem a ha) (.sendHeartbeats hn hrole) (a := .sendHeartbeats) hbound trivial
  set s₁ := State.after s a (n.act .sendHeartbeats) _ with hs₁
  have hvs : ∀ v ∈ up.erase a, v ∈ c.members ∧
      (∃ k : ℕ, s₁.calls[k]? = some ⟨a, v, .appendEntries n.heartbeat⟩) ∧
      ∃ y, s₁.processes v = .running y ∧ y.ps.currentTerm ≤ n.heartbeat.term := by
    intro v hmemv
    have hne : v ≠ a := fun h => hnodup.not_mem_erase (h ▸ hmemv)
    have hup := List.mem_of_mem_erase hmemv
    obtain ⟨y, hy, hterm⟩ := hterms v hup
    refine ⟨hmem v hup, List.mem_iff_getElem?.mp ?_, y, ?_, hterm⟩
    · rw [hs₁, State.after_calls]
      have hpeer : v ∈ n.peers := by
        rw [hnode.peers]
        exact (c.mem_peers a (hmem a ha) v).mpr ⟨hmem v hup, hne⟩
      exact List.mem_append_right _ (List.mem_map.mpr ⟨v, hpeer, rfl⟩)
    · rw [hs₁, State.after_of_ne _ _ _ hne]
      exact hy
  obtain ⟨fs, s₂, k, hcalls, hfollow, hothers⟩ := steps_follow hbound (hnodup.erase a) hvs
  have hwait : s₂.processes a = .waiting (n.act .sendHeartbeats) (.heartbeats s.calls.length) := by
    rw [hothers a hnodup.not_mem_erase, hs₁, State.after_self]
    rfl
  -- no reply comes back
  have hact : (n.act .sendHeartbeats).act
      (.finishHeartbeats (unanswered (n.act .sendHeartbeats).peers)) = n.begin.begin :=
    finishHeartbeats_unanswered n.begin.begin n.peers
  have hbound₂ : Bounded (n.act .sendHeartbeats)
      (.finishHeartbeats (unanswered (n.act .sendHeartbeats).peers)) := by
    rw [Bounded, hact]
    exact hbound
  have hstep₂ : Step c anything s₂ none _ := .act (hmem a ha)
    (.finishHeartbeats hwait (unanswered_length _) (answered_unanswered s₂ _ _ _)) hbound₂ trivial
  rw [hact] at hstep₂
  refine ⟨_, _, .snoc (.cons hstep₁ k) hstep₂, n.begin.begin, State.after_self .., hrole, ?_⟩
  intro v hv hne
  obtain ⟨m, hm, hfm⟩ := hfollow v ((List.mem_erase_of_ne hne).mpr hv)
  have hself : n.heartbeat.leaderId = a := hnode.self
  exact ⟨m, (State.after_of_ne _ _ _ hne).trans hm, hself ▸ hfm⟩

/-- From every reachable state of every cluster in which a majority is up, the members that
are up can get a leader that the others follow. -/
theorem majority_can_elect (run : ClusterRun c anything es s)
    (hsize : ∀ id ∈ c.members, (idBytes id).length < 2 ^ 32) {up : List NodeId}
    (hnodup : up.Nodup) (hmajority : c.members.length < 2 * up.length) {t : ℕ}
    (ht : t + 1 < 2 ^ 64) (hup : ∀ id ∈ up, id ∈ c.members ∧
      ∃ n, (s.processes id).node = some n ∧ n.ps.currentTerm ≤ t) :
    ∃ fs s', Steps (Step c anything) s fs s' ∧ ∃ id ∈ up, Leads s' up id := by
  have hmem : ∀ id ∈ up, id ∈ c.members := fun id hid => (hup id hid).1
  obtain ⟨fs, s₁, k, hready, _⟩ := steps_settle (Nat.lt_of_succ_lt ht) hup
  obtain ⟨gs, s₂, k', a, ha, hlead⟩ :=
    steps_foremost (run_steps run k) hsize hnodup hmem hmajority ht hready
  obtain ⟨hs, s₃, k'', hleads⟩ :=
    steps_heartbeats (run_steps (run_steps run k) k') hnodup hmem ha hlead
  exact ⟨_, s₃, (k.trans k').trans k'', a, ha, hleads⟩

end

/-- "n1" and "n2" have just started. -/
theorem majority_can_elect_two :
    ∃ s, @ClusterRun ieee trio anything [] s ∧
      ∃ fs s', Steps (@Step ieee trio anything) s fs s' ∧ ∃ id ∈ ["n1", "n2"],
        Leads s' ["n1", "n2"] id := by
  let _ : Crc32 := ieee
  obtain ⟨s, run, hfresh⟩ := run_fresh (k := 0) trio anything (by decide)
  have hup : ∀ id ∈ ["n1", "n2"], id ∈ trio.members ∧
      ∃ n, (s.processes id).node = some n ∧ n.ps.currentTerm ≤ 0 := by
    intro id hid
    have hmem : id ∈ trio.members := by
      rcases List.mem_cons.mp hid with rfl | hid
      · decide
      · obtain rfl := List.mem_singleton.mp hid
        decide
    obtain ⟨n, hn, hstand, _⟩ := hfresh id hmem
    refine ⟨hmem, n, ?_, Nat.le_of_eq hstand.term⟩
    rw [hn]
    rfl
  exact ⟨s, run, majority_can_elect run (by decide) (by decide) (by decide) (by decide) hup⟩

end RaftClusterElectability
