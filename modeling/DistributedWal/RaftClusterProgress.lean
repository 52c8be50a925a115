import DistributedWal.RaftNodeInstall
import DistributedWal.RaftNodeWrites
import DistributedWal.RaftClusterLogs

/-! # Progress with one peer that answers

In a cluster of up to three members a candidate needs the vote of one peer, and a leader
one ack. The calls to the other peers stay on their way.
-/
namespace RaftClusterProgress

open LittleEndianCodec WalSegment WalEngine WalContents ReplicatedLog ReplicatedLogContents
open WalEntry (Crc32 ieee WalError)
open RaftPersistentState RaftSnapshot RaftNode RaftNodeFrame RaftNodeHandlers RaftNodeLogs
open RaftNodeVotes RaftNodeAppends RaftNodeMoves RaftNodeWrites RaftCluster RaftClusterLogs
open RaftNodeJournal (Room)
open RaftNodeInstall (UpToDate)

/-- The results of calls of which only those to `b` are answered. -/
def onlyFrom {α : Type} (b : NodeId) (r : α) (targets : List NodeId) :
    List (NodeId × Option α) :=
  targets.map (fun p => (p, if p = b then some r else none))

def silent {α : Type} (targets : List NodeId) : List (NodeId × Option α) :=
  targets.map (fun p => (p, none))

theorem onlyFrom_targets {α : Type} (b : NodeId) (r : α) (targets : List NodeId) :
    (onlyFrom b r targets).map Prod.fst = targets := by
  rw [onlyFrom, List.map_map]
  exact List.map_id targets

theorem silent_targets {α : Type} (targets : List NodeId) :
    (silent targets : List (NodeId × Option α)).map Prod.fst = targets := by
  rw [silent, List.map_map]
  exact List.map_id targets

theorem onlyFrom_silent {α : Type} {b : NodeId} (r : α) {targets : List NodeId}
    (hb : b ∉ targets) : onlyFrom b r targets = silent targets := by
  apply List.map_congr_left
  intro p hp
  have hne : p ≠ b := ne_of_mem_of_not_mem hp hb
  rw [if_neg hne]

theorem countAppends_silent (n : Node) (upTo acks : ℕ) (targets : List NodeId) :
    n.countAppends upTo acks (silent targets) = .ok (acks, n) := by
  induction targets with
  | nil => rfl
  | cons p targets ih => exact ih

theorem countSnapshots_silent (n : Node) (acks : ℕ) (targets : List NodeId) :
    n.countSnapshots acks (silent targets) = (acks, n) := by
  induction targets with
  | nil => rfl
  | cons p targets ih => exact ih

theorem countAppends_onlyFrom {n : Node} {b : NodeId} {r : AppendEntriesResponse}
    {targets : List NodeId} (hnodup : targets.Nodup) (hb : b ∈ targets)
    (hyes : r.success = true) (hterm : r.term ≤ n.ps.currentTerm) (upTo acks : ℕ) :
    n.countAppends upTo acks (onlyFrom b r targets) =
      .ok (acks + 1, withProgress n (Function.update n.nextIndex b (some (upTo + 1)))
        (Function.update n.matchIndex b (some upTo))) := by
  induction targets with
  | nil => exact absurd hb List.not_mem_nil
  | cons p targets ih =>
    obtain ⟨hp, hnodup⟩ := List.nodup_cons.mp hnodup
    by_cases heq : p = b
    · subst heq
      rw [onlyFrom, List.map_cons, ← onlyFrom, onlyFrom_silent r hp, if_pos rfl,
        Node.countAppends]
      dsimp only [Option.getD_some]
      rw [if_neg (Nat.not_lt.mpr hterm), if_pos hyes, countAppends_silent]
      rfl
    · have hb := (List.mem_cons.mp hb).resolve_left (fun h => heq h.symm)
      rw [onlyFrom, List.map_cons, ← onlyFrom, if_neg heq]
      exact ih hnodup hb

theorem countSnapshots_onlyFrom {n : Node} {b : NodeId} {t : ℕ} {targets : List NodeId}
    (hnodup : targets.Nodup) (hb : b ∈ targets) (hterm : t ≤ n.ps.currentTerm) (acks : ℕ) :
    n.countSnapshots acks (onlyFrom b ⟨t, true⟩ targets) =
      (acks + 1, withProgress n
        (Function.update n.nextIndex b (some (n.log.snapshotIndex + 1)))
        (Function.update n.matchIndex b (some n.log.snapshotIndex))) := by
  induction targets with
  | nil => exact absurd hb List.not_mem_nil
  | cons p targets ih =>
    obtain ⟨hp, hnodup⟩ := List.nodup_cons.mp hnodup
    by_cases heq : p = b
    · subst heq
      have hrest := onlyFrom_silent (⟨t, true⟩ : InstallSnapshotResponse) hp
      rw [onlyFrom, List.map_cons, ← onlyFrom, hrest, if_pos rfl, Node.countSnapshots,
        if_neg (Nat.not_lt.mpr hterm), if_pos rfl]
      dsimp only
      rw [countSnapshots_silent]
      rfl
    · have hb := (List.mem_cons.mp hb).resolve_left (fun h => heq h.symm)
      rw [onlyFrom, List.map_cons, ← onlyFrom, if_neg heq]
      exact ih hnodup hb

theorem granted_onlyFrom {b : NodeId} {t : ℕ} {targets : List NodeId} (hb : b ∈ targets) :
    1 ≤ (((onlyFrom b (⟨t, true⟩ : RequestVoteResponse) targets).map Prod.snd).filter
      (fun r => r.any RequestVoteResponse.voteGranted)).length := by
  apply List.length_pos_of_mem (a := some ⟨t, true⟩)
  rw [List.mem_filter, onlyFrom, List.map_map]
  refine ⟨List.mem_map.mpr ⟨b, hb, if_pos rfl⟩, rfl⟩

theorem of_mem_onlyFrom {α : Type} {b : NodeId} {r x : α} {targets : List NodeId}
    (h : some x ∈ (onlyFrom b r targets).map Prod.snd) : x = r := by
  rw [onlyFrom, List.map_map] at h
  obtain ⟨p, _, hp⟩ := List.mem_map.mp h
  dsimp only [Function.comp] at hp
  split at hp
  · exact (Option.some.inj hp).symm
  · cases hp

/-- The actions that no condition on a run refuses while the counters have room. -/
def Plain (n : Node) : Action → Prop
  | .appendEntries req => ∀ e ∈ req.entries, n.log.snapshotIndex < e.index
  | .installSnapshot _ => False
  | .finishWrite _ _ snapshots =>
      snapshotAcks snapshots = 0 ∧ n.entriesSinceSnapshot + 1 < n.snapshotTrigger
  | .clientRead _ => False
  | _ => True

def AllowsPlain (ok : Conditions) : Prop := ∀ n a, Plain n a → Room n a → ok.action n a

theorem anything_allowsPlain : AllowsPlain anything := fun _ _ _ _ => trivial

theorem raftConditions_allowsPlain [Crc32] (backed reads : Prop) :
    AllowsPlain (raftConditions backed reads) := by
  intro n a hplain hroom
  refine ⟨hroom, ?_⟩
  cases a with
  | appendEntries req =>
    refine ⟨trivial, ?_⟩
    intro _ e he hle
    exact absurd (hplain e he) (Nat.not_lt.mpr hle)
  | installSnapshot req => exact hplain.elim
  | finishWrite index appends snapshots =>
    refine ⟨fun _ htrigger => absurd htrigger (Nat.not_le.mpr hplain.2), ?_⟩
    intro _ hquorum
    rw [hplain.1, Nat.add_zero] at hquorum
    exact hquorum
  | clientRead fromIndex => exact hplain.elim
  | _ => exact ⟨trivial, trivial⟩

/-- What the steps of `a` and `b` leave alone. -/
structure Between (a b : NodeId) (s s' : State) : Prop where
  others : ∀ i, i ≠ a → i ≠ b → s'.processes i = s.processes i
  calls : ∀ call ∈ s.calls, call ∈ s'.calls

theorem Between.refl {a b : NodeId} {s : State} : Between a b s s :=
  ⟨fun _ _ _ => rfl, fun _ h => h⟩

theorem Between.trans {a b : NodeId} {s₁ s₂ s₃ : State} (h : Between a b s₁ s₂)
    (k : Between a b s₂ s₃) : Between a b s₁ s₃ := by
  refine ⟨?_, fun call hcall => k.calls call (h.calls call hcall)⟩
  intro i hia hib
  exact (k.others i hia hib).trans (h.others i hia hib)

theorem between_after {a b i : NodeId} (hi : i = a ∨ i = b) (s : State) (n : Node)
    (o : Outcome) : Between a b s (s.after i n o) := by
  refine ⟨?_, fun call hcall => List.mem_append_left _ hcall⟩
  intro j hja hjb
  rw [State.after_of_ne]
  rcases hi with rfl | rfl
  · exact hja
  · exact hjb

theorem answered_silent {s : State} {first : ℕ} {results : List (Option Response)}
    (h : ∀ r ∈ results, r = none) : Answered s first results := by
  intro i resp hresp
  cases h _ (List.mem_of_getElem? hresp)

theorem answered_append {s : State} {first : ℕ} {rs ss : List (Option Response)}
    (hr : Answered s first rs) (hs : Answered s (first + rs.length) ss) :
    Answered s first (rs ++ ss) := by
  intro i resp hresp
  by_cases hi : i < rs.length
  · rw [List.getElem?_append_left hi] at hresp
    exact hr i resp hresp
  · rw [List.getElem?_append_right (Nat.not_lt.mp hi)] at hresp
    have hmem := hs _ resp hresp
    rw [show first + rs.length + (i - rs.length) = first + i by omega] at hmem
    exact hmem

/-- The reply to the only call that is answered. -/
theorem answered_onlyFrom {α : Type} {s : State} {first j : ℕ} {b : NodeId} {r : α}
    {targets : List NodeId} (hnodup : targets.Nodup) (hj : targets[j]? = some b)
    (f : α → Response) (hreply : (first + j, f r) ∈ s.replies) :
    Answered s first ((onlyFrom b r targets).map (fun p => p.2.map f)) := by
  intro i resp hresp
  rw [onlyFrom, List.map_map, List.getElem?_map] at hresp
  obtain ⟨p, hp, heq⟩ := Option.map_eq_some_iff.mp hresp
  dsimp only [Function.comp] at heq
  split at heq
  · rename_i hpb
    subst hpb
    have hij := (List.getElem?_inj (List.getElem?_eq_some_iff.mp hp).1 hnodup).mp
      (hp.trans hj.symm)
    cases heq
    rw [hij]
    exact hreply
  · cases heq

theorem map_silent {α : Type} (f : α → Response) (targets : List NodeId) :
    ∀ r ∈ (silent targets : List (NodeId × Option α)).map (fun p => p.2.map f), r = none := by
  intro r hr
  rw [silent, List.map_map] at hr
  obtain ⟨p, _, rfl⟩ := List.mem_map.mp hr
  rfl

theorem snapshotAcks_silent (targets : List NodeId) : snapshotAcks (silent targets) = 0 := by
  rw [snapshotAcks, List.length_eq_zero_iff, List.filter_eq_nil_iff, silent]
  intro x hx
  obtain ⟨p, _, rfl⟩ := List.mem_map.mp hx
  exact Bool.false_ne_true

section

variable [Crc32]

/-- The WAL has room for the records of `k` more entries. -/
structure Spare (n : Node) (k : ℕ) : Prop where
  healthy : ∃ c, Healthy n.log c
  config : n.log.wal.config = walConfig
  room : n.log.wal.nextSequence + 2 * k < 2 ^ 64

/-- A member with the log `v` in term `t`. -/
structure Standing (c : Cluster) (id : NodeId) (v : LogView) (t k : ℕ) (n : Node) : Prop
    extends Spare n k where
  self : n.id = id
  peers : n.peers = c.peers id
  term : n.ps.currentTerm = t
  view : n.log.toLogView = v

theorem Spare.of_le {n : Node} {k j : ℕ} (h : Spare n k) (hj : j ≤ k) : Spare n j := by
  have := h.room
  exact ⟨h.healthy, h.config, by omega⟩

theorem Spare.takes {n : Node} {k : ℕ} (h : Spare n k) {entries : List LogEntry}
    (hlen : entries.length ≤ k) (hfits : ∀ e ∈ entries, FitsSegment e.data) :
    Takes n entries := by
  have := h.room
  exact ⟨h.healthy, h.config, by omega, hfits⟩

variable {c : Cluster} {ok : Conditions} {es : List Event} {s : State} {a b id : NodeId}
  {v w : LogView} {t u k j : ℕ} {n m x y : Node}

theorem Standing.untouched (h : Standing c id v t k n) (hu : Untouched n m)
    (hself : m.id = n.id ∧ m.peers = n.peers) : Standing c id v m.ps.currentTerm k m := by
  refine ⟨⟨?_, ?_, ?_⟩, hself.1.trans h.self, hself.2.trans h.peers, rfl, ?_⟩
  · rw [hu.log]
    exact h.healthy
  · rw [hu.log]
    exact h.config
  · rw [hu.log]
    exact h.room
  · rw [hu.log]
    exact h.view

omit [Crc32] in
/-- A vote in a new term goes to a candidate whose log is up to date. -/
theorem onRequestVote_granted {req : RequestVoteRequest} (hterm : n.ps.currentTerm < req.term)
    (hlog : UpToDate n.log.lastTerm n.log.lastIndex w)
    (hreq : req.lastLogTerm = w.lastTerm ∧ req.lastLogIndex = w.lastIndex) :
    (n.onRequestVote req).1 = ⟨req.term, true⟩ ∧
      (n.onRequestVote req).2.ps.currentTerm = req.term ∧
      (n.onRequestVote req).2.role = .follower := by
  have hobs : observeTerm n req.term = { n.advanceTerm req.term with role := .follower } :=
    if_pos hterm
  have hok : (observeTerm n req.term).logOk req = true := by
    rw [hobs, Node.logOk, hreq.1, hreq.2]
    show (decide (w.lastTerm > n.log.lastTerm) || (decide (w.lastTerm = n.log.lastTerm) &&
      decide (w.lastIndex ≥ n.log.lastIndex))) = true
    rcases hlog with hlt | ⟨heq, hle⟩
    · rw [decide_eq_true hlt, Bool.true_or]
    · rw [decide_eq_true heq.symm, decide_eq_true hle, Bool.and_self, Bool.or_true]
  have hcur : ¬ req.term < (observeTerm n req.term).ps.currentTerm := by
    rw [hobs]
    exact lt_irrefl req.term
  have hfree : ¬ (observeTerm n req.term).alreadyVotedForOther req.candidateId = true := by
    rw [hobs]
    exact Bool.false_ne_true
  rw [onRequestVote_eq, decideVote, if_neg hcur, if_neg hfree, if_neg (not_not.mpr hok), hobs]
  exact ⟨rfl, rfl, rfl⟩

/-- A cluster of up to three: two members are a quorum. -/
theorem Standing.quorum_le (h : Standing c id v t k n) (hsmall : (c.peers id).length ≤ 2) :
    n.quorum ≤ 2 := by
  rw [Node.quorum, Node.clusterSize, h.peers]
  omega

theorem run_campaign (run : ClusterRun c ok es s) (hok : AllowsPlain ok) (ha : a ∈ c.members)
    (hup : s.processes a = .running x) (hx : Standing c a v t k x) (hrole : x.role ≠ .leader)
    (hbound : t + 1 < 2 ^ 64) :
    ∃ x', ClusterRun c ok es (s.after a x' ⟨some (.election s.calls.length),
        (c.peers a).map (fun p => ⟨a, p, .requestVote ⟨t + 1, a, v.lastIndex, v.lastTerm⟩⟩),
        [], none⟩) ∧
      Standing c a v (t + 1) k x' ∧ Untouched x x' ∧ x'.role = .candidate := by
  have hasks : x.begin.startElection.1 = ⟨t + 1, a, v.lastIndex, v.lastTerm⟩ := by
    show RequestVoteRequest.mk (x.ps.currentTerm + 1) x.id x.log.lastIndex x.log.lastTerm = _
    rw [hx.term, hx.self, hx.view]
  have hterm : (x.act .startElection).ps.currentTerm = t + 1 := congrArg (· + 1) hx.term
  have hb : Bounded x .startElection := by
    rw [Bounded, hterm]
    exact hbound
  have hsame : Untouched x (x.act .startElection) := act_untouched (by simp [TouchesLog])
  have hstand := hx.untouched hsame (act_identity x _)
  rw [hterm] at hstand
  have run' := run.step (.act ha (.startElection hup hrole) hb (hok _ _ trivial trivial))
  rw [hasks, hx.peers, Option.toList_none, List.append_nil] at run'
  exact ⟨_, run', hstand, hsame, rfl⟩

theorem run_vote (run : ClusterRun c ok es s) (hok : AllowsPlain ok) (hb : b ∈ c.members)
    (hup : s.processes b = .running y) (hy : Standing c b w u j y) {q : ℕ}
    (hcall : s.calls[q]? = some ⟨a, b, .requestVote ⟨t, a, v.lastIndex, v.lastTerm⟩⟩)
    (hterm : u < t) (hbound : t < 2 ^ 64) (hsize : (idBytes a).length < 2 ^ 32)
    (hlog : UpToDate w.lastTerm w.lastIndex v) :
    ∃ y', ClusterRun c ok es
        (s.after b y' ⟨none, [], [(q, .requestVote ⟨t, true⟩)], none⟩) ∧
      Standing c b w t j y' ∧ Untouched y y' ∧ y'.role = .follower := by
  set req : RequestVoteRequest := ⟨t, a, v.lastIndex, v.lastTerm⟩ with hreq
  have hlow : y.begin.ps.currentTerm < req.term := by
    show y.ps.currentTerm < t
    rw [hy.term]
    exact hterm
  have hbehind : UpToDate y.begin.log.lastTerm y.begin.log.lastIndex v := by
    show UpToDate y.log.lastTerm y.log.lastIndex v
    rw [hy.view]
    exact hlog
  obtain ⟨hvote, hcur, hrole⟩ := onRequestVote_granted hlow hbehind ⟨rfl, rfl⟩
  have hcur : (y.act (.requestVote req)).ps.currentTerm = t := hcur
  have hb' : Bounded y (.requestVote req) := by
    rw [Bounded, hcur]
    exact hbound
  have hsame : Untouched y (y.act (.requestVote req)) := act_untouched (by simp [TouchesLog])
  have hstand := hy.untouched hsame (act_identity y _)
  rw [hcur] at hstand
  have run' := run.step (.act hb (.requestVote hup hcall hsize) hb' (hok _ _ trivial trivial))
  rw [hvote, Option.toList_none, List.append_nil] at run'
  exact ⟨_, run', hstand, hsame, hrole⟩

theorem run_win (run : ClusterRun c ok es s) (hok : AllowsPlain ok) (ha : a ∈ c.members)
    (hsmall : (c.peers a).length ≤ 2) {first i : ℕ} (hi : (c.peers a)[i]? = some b)
    (hup : s.processes a = .waiting x (.election first)) (hx : Standing c a v t k x)
    (hrole : x.role = .candidate) (hbound : t < 2 ^ 64)
    (hreply : (first + i, .requestVote ⟨t, true⟩) ∈ s.replies) :
    ClusterRun c ok (es ++ [.elected a t])
      (s.after a x.begin.becomeLeader ⟨none, [], [], some (.elected a t)⟩) := by
  set results := (onlyFrom b (⟨t, true⟩ : RequestVoteResponse) (c.peers a)).map Prod.snd
    with hresults
  have hwon : x.begin.finishElection results = x.begin.becomeLeader := by
    apply finishElection_won (n := x.begin) hrole
    · intro r hr
      rw [of_mem_onlyFrom hr]
      exact Nat.le_of_eq hx.term.symm
    · have hvote := granted_onlyFrom (t := t) (List.mem_of_getElem? hi)
      exact (hx.quorum_le hsmall).trans (Nat.add_le_add_left hvote 1)
  have hact : x.act (.finishElection results) = x.begin.becomeLeader := hwon
  have hterm : x.begin.becomeLeader.ps.currentTerm = t := hx.term
  have hb : Bounded x (.finishElection results) := by
    rw [Bounded, hact, hterm]
    exact hbound
  have hlen : results.length = x.peers.length := by
    rw [hresults, onlyFrom, List.length_map, List.length_map, hx.peers]
  have hanswered : Answered s first (results.map (Option.map .requestVote)) := by
    rw [hresults, List.map_map]
    exact answered_onlyFrom (c.peers_nodup a ha) hi Response.requestVote hreply
  have run' := run.step (.act ha (.finishElection hup hlen hanswered) hb
    (hok _ _ trivial trivial))
  have hevent : (if (x.begin.finishElection results).role = .leader then
      some (Event.elected a (x.begin.finishElection results).ps.currentTerm) else none) =
      some (Event.elected a t) := by
    rw [hwon, hterm]
    exact if_pos rfl
  rw [hevent, hact] at run'
  exact run'

/-- With the vote of one peer a candidate leads. -/
theorem run_election (run : ClusterRun c ok es s) (hok : AllowsPlain ok) (ha : a ∈ c.members)
    (hb : b ∈ c.peers a) (hsmall : (c.peers a).length ≤ 2)
    (hupx : s.processes a = .running x) (hupy : s.processes b = .running y)
    (hx : Standing c a v t k x) (hy : Standing c b w u j y) (hrole : x.role ≠ .leader)
    (hterm : u ≤ t) (hbound : t + 1 < 2 ^ 64) (hsize : (idBytes a).length < 2 ^ 32)
    (hlog : UpToDate w.lastTerm w.lastIndex v) :
    ∃ s' x' y', ClusterRun c ok (es ++ [.elected a (t + 1)]) s' ∧ Between a b s s' ∧
      s'.processes a = .running x' ∧ s'.processes b = .running y' ∧
      Standing c a v (t + 1) k x' ∧ Standing c b w (t + 1) j y' ∧
      Elected x x' ∧ Untouched y y' ∧ y'.role = .follower := by
  obtain ⟨hbmem, hne⟩ := (c.mem_peers a ha b).mp hb
  obtain ⟨i, hi⟩ := List.mem_iff_getElem?.mp hb
  obtain ⟨x₁, run₁, hx₁, hsame, hcandidate⟩ := run_campaign run hok ha hupx hx hrole hbound
  set s₁ := State.after s a x₁ _ with hs₁
  have hcall : s₁.calls[s.calls.length + i]? =
      some ⟨a, b, .requestVote ⟨t + 1, a, v.lastIndex, v.lastTerm⟩⟩ := by
    rw [hs₁, State.after_calls, List.getElem?_append_right (Nat.le_add_right _ _),
      Nat.add_sub_cancel_left, List.getElem?_map, hi]
    rfl
  have hupy₁ : s₁.processes b = .running y := by
    rw [hs₁, State.after_of_ne _ _ _ hne]
    exact hupy
  obtain ⟨y', run₂, hy', hsamey, hfollower⟩ :=
    run_vote run₁ hok hbmem hupy₁ hy hcall (Nat.lt_succ_of_le hterm) hbound hsize hlog
  set s₂ := State.after s₁ b y' _ with hs₂
  have hwait : s₂.processes a = .waiting x₁ (.election s.calls.length) := by
    rw [hs₂, State.after_of_ne _ _ _ hne.symm, hs₁, State.after_self]
    rfl
  have hreply : (s.calls.length + i, Response.requestVote ⟨t + 1, true⟩) ∈ s₂.replies :=
    List.mem_append_right _ (List.mem_singleton_self _)
  have run₃ := run_win run₂ hok ha hsmall hi hwait hx₁ hcandidate hbound hreply
  have hlead : Untouched x₁ x₁.begin.becomeLeader :=
    (begin_untouched x₁).trans (.volatile rfl rfl rfl rfl rfl rfl rfl)
  have hwinner := hx₁.untouched hlead ⟨rfl, rfl⟩
  refine ⟨_, x₁.begin.becomeLeader, y', run₃, ?_, ?_, ?_, ?_, hy', ⟨rfl, ?_, ?_, ?_, ?_⟩,
    hsamey, hfollower⟩
  · exact ((between_after (Or.inl rfl) s _ _).trans (between_after (Or.inr rfl) s₁ _ _)).trans
      (between_after (Or.inl rfl) s₂ _ _)
  · rw [State.after_self]
    rfl
  · rw [State.after_of_ne _ _ _ hne, hs₂, State.after_self]
    rfl
  · rw [show x₁.begin.becomeLeader.ps.currentTerm = t + 1 from hx₁.term] at hwinner
    exact hwinner
  · rw [hx.term]
    exact hx₁.term
  · exact hx₁.peers.trans hx.peers.symm
  · intro p hp
    rw [hx.peers, ← hx₁.peers] at hp
    rw [← hsame.log]
    exact if_pos hp
  · exact hsame.trans hlead

/-- Every member has started. -/
theorem run_fresh (c : Cluster) (ok : Conditions) (hk : 2 * k + 1 < 2 ^ 64) :
    ∃ s, ClusterRun c ok [] s ∧ ∀ id ∈ c.members, ∃ n, s.processes id = .running n ∧
      Standing c id LogView.empty 0 k n ∧ n.role = .follower ∧ n.snapshotTrigger = 100 ∧
      n.entriesSinceSnapshot = 0 ∧ n.snapshot = none ∧ n.commitIndex = 0 := by
  have hstarts : ∀ id, ∃ n, Node.start id (c.peers id) none Dir.empty none = .ok n ∧
      Standing c id LogView.empty 0 k n ∧ n.role = .follower ∧ n.snapshotTrigger = 100 ∧
      n.entriesSinceSnapshot = 0 ∧ n.snapshot = none ∧ n.commitIndex = 0 := by
    intro id
    obtain ⟨n, log, hstart, hn, hview, hhealthy, hcfg, hseq⟩ := start_fresh id (c.peers id)
    obtain ⟨htrigger, hsince⟩ := start_counters hstart
    have hlog := hn.log
    subst hlog
    refine ⟨n, hstart, ⟨⟨⟨_, hhealthy⟩, hcfg, ?_⟩, hn.id, hn.peers, ?_, hview⟩, hn.role, htrigger,
      hsince, ?_, hn.commitIndex⟩
    · rw [hseq]
      omega
    · rw [hn.ps]
      rfl
    · rw [hn.snapshot]
      rfl
  choose fresh hfresh using hstarts
  refine ⟨⟨fun id => .running (fresh id), [], []⟩, ?_, fun id _ => ⟨fresh id, rfl, (hfresh id).2⟩⟩
  apply ClusterRun.start
  exact ⟨fun id _ => ⟨fresh id, (hfresh id).1, rfl⟩, rfl, rfl⟩

theorem run_read (run : ClusterRun c ok es s) (ha : a ∈ c.members)
    (hup : s.processes a = .running x) (hx : Standing c a v t k x) (hbound : t < 2 ^ 64)
    (fromIndex : ℕ) (hallowed : ok.action x (.clientRead fromIndex)) :
    ∃ s', ClusterRun c ok (es ++ [.served a fromIndex (v.entriesFrom fromIndex)]) s' ∧
      ∀ i, i ≠ a → s'.processes i = s.processes i := by
  have hb : Bounded x (.clientRead fromIndex) := by
    show x.ps.currentTerm < 2 ^ 64
    rw [hx.term]
    exact hbound
  have run' := run.step (.act ha (.clientRead hup) hb hallowed)
  rw [show x.clientRead fromIndex = v.entriesFrom fromIndex by rw [Node.clientRead, hx.view]]
    at run'
  exact ⟨_, run', fun i hi => State.after_of_ne _ _ _ hi⟩

end

end RaftClusterProgress
