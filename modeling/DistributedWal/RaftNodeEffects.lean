import DistributedWal.LeaderCompleteness
import DistributedWal.RaftNodeSnapshots
import DistributedWal.RaftNodeCommit

/-! # What an action does to a replicated log

Each action of a member takes its log and its term from one history of the cluster to a
later one. A crash in the middle leaves either the files from before the action or files
with the new term.
-/
namespace RaftNodeEffects

open LittleEndianCodec WalSegment WalEngine WalContents ReplicatedLog ReplicatedLogContents
open WalEntry (Crc32 ieee WalError)
open RaftPersistentState RaftSnapshot RaftNode RaftNodeFrame RaftNodeHandlers RaftNodeLogs
open RaftNodeVotes RaftNodeAppends RaftNodeMoves RaftNodeSnapshots RaftNodeCommit
open RaftNodeJournal (Room)
open LogMatching LeaderCompleteness Quorums FullLog

/-- Every image is the one that the action found, or is of the term that the node is in. -/
structure Moved (found : Image) (n : Node) : Prop where
  durable : (stored n.ps.file).1 = n.ps.currentTerm
  images : ∀ img ∈ n.trail, img = found ∨ (stored img.stateFile).1 = n.ps.currentTerm

section

variable {found : Image} {n m : Node}

theorem Moved.begin (h : (stored n.ps.file).1 = n.ps.currentTerm) : Moved n.image n.begin :=
  ⟨h, fun _ himg => Or.inl (List.mem_singleton.mp himg)⟩

theorem Moved.quiet (h : Moved found n) (hq : Quiet n m) : Moved found m := by
  obtain ⟨images, htrail, hfile⟩ := hq.trail
  refine ⟨by rw [hq.ps]; exact h.durable, ?_⟩
  intro img himg
  rw [htrail] at himg
  rw [hq.ps]
  rcases List.mem_append.mp himg with himg | himg
  · exact h.images img himg
  · right
    rw [hfile img himg]
    exact h.durable

/-- Changes of volatile fields. -/
theorem Moved.volatile (h : Moved found n) (hps : m.ps = n.ps) (htrail : m.trail = n.trail) :
    Moved found m := by
  refine ⟨by rw [hps]; exact h.durable, ?_⟩
  rw [hps, htrail]
  exact h.images

theorem Moved.advanceTerm (htrail : n.trail = [found]) {t : ℕ} (ht : t < 2 ^ 64) :
    Moved found (n.advanceTerm t) := by
  have hdurable : (stored (n.advanceTerm t).ps.file).1 = t :=
    congrArg Prod.fst (stored_advanced ht)
  refine ⟨hdurable, ?_⟩
  intro img himg
  rcases List.mem_append.mp himg with himg | himg
  · left
    have himg : img ∈ n.trail := himg
    rw [htrail] at himg
    exact List.mem_singleton.mp himg
  · right
    obtain rfl := List.mem_singleton.mp himg
    exact hdurable

theorem Moved.recordVote (h : Moved found n) (hb : n.ps.currentTerm < 2 ^ 64) (c : NodeId) :
    Moved found (n.recordVote c) := by
  have hdurable : (stored (n.recordVote c).ps.file).1 = n.ps.currentTerm := by
    rw [stored_recordVote]
    exact decode_encode_term hb (some c)
  refine ⟨hdurable, ?_⟩
  intro img himg
  rcases List.mem_append.mp himg with himg | himg
  · exact h.images img himg
  · right
    obtain rfl := List.mem_singleton.mp himg
    exact hdurable

/-- The start of both handlers of a leader's calls. -/
theorem Moved.acceptLeader (h : Moved found n) (htrail : n.trail = [found]) {t : ℕ}
    (ht : t > n.ps.currentTerm → t < 2 ^ 64) (leader : NodeId) :
    Moved found (n.acceptLeader t leader) := by
  rw [Node.acceptLeader]
  split
  · rename_i hgt
    exact (Moved.advanceTerm htrail (ht hgt)).volatile rfl rfl
  · exact h.volatile rfl rfl

theorem Moved.observeTerm (h : Moved found n) (htrail : n.trail = [found]) {t : ℕ}
    (ht : t > n.ps.currentTerm → t < 2 ^ 64) : Moved found (observeTerm n t) := by
  rw [RaftNodeHandlers.observeTerm]
  split
  · rename_i hgt
    exact (Moved.advanceTerm htrail (ht hgt)).volatile rfl rfl
  · exact h

theorem Moved.stepDown (htrail : n.trail = [found]) {t : ℕ} (ht : t < 2 ^ 64) :
    Moved found (n.stepDown t) := (Moved.advanceTerm htrail ht).volatile rfl rfl

variable [Crc32]

theorem onAppendEntries_currentTerm (n : Node) (req : AppendEntriesRequest) :
    (n.onAppendEntries req).2.ps.currentTerm = max n.ps.currentTerm req.term := by
  rw [onAppendEntries_ps]
  split
  · rename_i hgt
    exact (Nat.max_eq_right (Nat.le_of_lt hgt)).symm
  · rename_i hgt
    exact (Nat.max_eq_left (Nat.not_lt.mp hgt)).symm

theorem onInstallSnapshot_currentTerm (n : Node) (req : InstallSnapshotRequest) :
    (n.onInstallSnapshot req).2.ps.currentTerm = max n.ps.currentTerm req.term := by
  rw [onInstallSnapshot_ps]
  split
  · rename_i hgt
    exact (Nat.max_eq_right (Nat.le_of_lt hgt)).symm
  · rename_i hgt
    exact (Nat.max_eq_left (Nat.not_lt.mp hgt)).symm

theorem onAppendEntries_moved (h : Moved found n) (htrail : n.trail = [found])
    {req : AppendEntriesRequest} (ht : req.term > n.ps.currentTerm → req.term < 2 ^ 64) :
    Moved found (n.onAppendEntries req).2 := by
  have hacc := h.acceptLeader htrail ht req.leaderId
  obtain ⟨_, ⟨_, _, hn | hn⟩ | ⟨_, _, hn⟩⟩ := onAppendEntries_cases n req
  · rw [hn]
    exact h
  · rw [hn]
    exact hacc
  · rw [hn]
    exact (hacc.quiet (storeEntries_quiet _ req.entries)).volatile rfl rfl

theorem onInstallSnapshot_moved (h : Moved found n) (htrail : n.trail = [found])
    {req : InstallSnapshotRequest} (ht : req.term > n.ps.currentTerm → req.term < 2 ^ 64) :
    Moved found (n.onInstallSnapshot req).2 := by
  have hacc := h.acceptLeader htrail ht req.leaderId
  rcases onInstallSnapshot_node n req with ⟨_, hn⟩ | ⟨_, hn | ⟨_, _, _, _, hn⟩⟩
  · rw [hn]
    exact h
  · rw [hn]
    exact hacc
  · rw [hn]
    have hinst := fun s i t => (hacc.quiet (saveSnapshot_quiet _ s)).quiet (installLog_quiet _ i t)
    exact (hinst _ _ _).volatile rfl rfl

/-- What a crash in the middle of an action leaves. -/
theorem act_moved (h : (stored n.ps.file).1 = n.ps.currentTerm) {a : Action}
    (hb : Bounded n a) : Moved n.image (n.act a) := by
  have hbegin := Moved.begin h
  have htrail : n.begin.trail = [n.image] := rfl
  rw [Bounded] at hb
  cases a with
  | requestVote req =>
    have hcur := observeTerm_currentTerm n.begin req.term
    have hle : (observeTerm n.begin req.term).ps.currentTerm < 2 ^ 64 := by
      rw [Node.act] at hb
      obtain ⟨_, ⟨_, hn⟩ | ⟨_, hn, _⟩⟩ := onRequestVote_cases n.begin req
      · rw [hn] at hb
        exact hb
      · rw [hn] at hb
        exact hb
    have hobs : Moved n.image (observeTerm n.begin req.term) := by
      apply hbegin.observeTerm htrail
      intro _
      rw [hcur] at hle
      exact Nat.lt_of_le_of_lt (Nat.le_max_right _ _) hle
    rw [Node.act]
    obtain ⟨_, ⟨_, hn⟩ | ⟨_, hn, _⟩⟩ := onRequestVote_cases n.begin req
    · rw [hn]
      exact hobs
    · rw [hn]
      exact hobs.recordVote hle _
  | appendEntries req =>
    apply onAppendEntries_moved hbegin htrail
    intro _
    rw [Node.act, onAppendEntries_currentTerm] at hb
    exact Nat.lt_of_le_of_lt (Nat.le_max_right _ _) hb
  | installSnapshot req =>
    apply onInstallSnapshot_moved hbegin htrail
    intro _
    rw [Node.act, onInstallSnapshot_currentTerm] at hb
    exact Nat.lt_of_le_of_lt (Nat.le_max_right _ _) hb
  | startElection =>
    have hadvanced : Moved n.image (n.begin.advanceTerm (n.ps.currentTerm + 1)) :=
      Moved.advanceTerm htrail hb
    exact (hadvanced.recordVote hb _).volatile rfl rfl
  | finishElection results =>
    rw [Node.act] at hb ⊢
    rcases finishElection_cases n.begin results with
      ⟨r, _, _, hn⟩ | ⟨hn, _⟩ | hn | ⟨hn, _⟩
    · rw [hn] at hb ⊢
      exact Moved.stepDown htrail hb
    · rw [hn]
      exact hbegin
    · rw [hn]
      exact hbegin.volatile rfl rfl
    · rw [hn]
      exact hbegin.volatile rfl rfl
  | startWrite data => exact hbegin.quiet (startWrite_quiet n.begin data)
  | finishWrite index appends snapshots =>
    have hquiet := commitWrite_quiet (n.begin.finishReplication index appends snapshots).2 index
      (n.begin.finishReplication index appends snapshots).1
    rw [Node.act, finishWrite_eq] at hb ⊢
    rw [hquiet.ps] at hb
    apply Moved.quiet ?_ hquiet
    obtain ⟨_, ⟨ni, mi, hn⟩ | ⟨t, ni, mi, _, _, hn⟩⟩ :=
      finishReplication_cases n.begin index appends snapshots
    · rw [hn]
      exact hbegin.volatile rfl rfl
    · rw [hn] at hb ⊢
      exact Moved.stepDown (n := withProgress n.begin ni mi) htrail hb
  | sendHeartbeats => exact hbegin
  | finishHeartbeats results =>
    rw [Node.act] at hb ⊢
    rcases finishHeartbeats_cases n.begin results with hn | ⟨r, _, _, hn⟩
    · rw [hn]
      exact hbegin
    · rw [hn] at hb ⊢
      exact Moved.stepDown htrail hb
  | clientRead fromIndex => exact hbegin

end

/-- Of the whole cluster: the terms, the leaders' logs and what the members took in. -/
abbrev LogHistory := History LogEntry NodeId

section

variable (backed : Prop) (q : QuorumSystem NodeId) (H : LogHistory)

/-- The log of a member in term `u`. If commits are `backed`, it also keeps what the member
has taken in. -/
structure Holding (id : NodeId) (u : ℕ) (l : List LogEntry) : Prop where
  matching : Matches LogEntry.term H.llog l
  terms : ∀ x ∈ l, 0 < x.term ∧ x.term ≤ u
  fits : ∀ x ∈ l, FitsSegment x.data
  keeps : backed → H.Keeps id (u + 1) l

/-- The snapshot stands for a log that matches, in term `u` committed if commits are
`backed`. -/
def Covered (u : ℕ) (s : Snapshot) : Prop :=
  ∃ p, StandsFor s.lastIncludedIndex s.lastIncludedTerm p ∧ Matches LogEntry.term H.llog p ∧
    (∀ x ∈ p, 0 < x.term ∧ x.term ≤ u) ∧ (∀ x ∈ p, FitsSegment x.data) ∧
    (backed → H.CommittedUpTo LogEntry.term q u p)

/-- The committed part of the log. -/
def CommitHolds (u commitIndex : ℕ) (l : List LogEntry) : Prop :=
  commitIndex ≤ l.length ∧ H.CommittedUpTo LogEntry.term q u (l.take commitIndex)

structure Member (id : NodeId) (n : Node) (l : List LogEntry) [Crc32] : Prop where
  current : H.current id = n.ps.currentTerm
  state : LogState (Holding backed H id n.ps.currentTerm) (Covered backed q H n.ps.currentTerm)
    n.begin l
  snapshot : ∀ s, n.snapshot = some s → Covered backed q H n.ps.currentTerm s
  kept : 0 < n.log.snapshotIndex → n.snapshot ≠ none
  committed : backed → CommitHolds q H n.ps.currentTerm n.commitIndex l

end

variable {backed : Prop} {q : QuorumSystem NodeId} {H H' : LogHistory} {id : NodeId} {n m : Node}
  {l l' p : List LogEntry} {u u' : ℕ} {snap : Snapshot}

theorem Holding.grow (h : Holding backed H id u l) (hlaw : H.Lawful LogEntry.term)
    (hg : Grows H H') (hsame : ∀ t ≤ u, H'.acked id t = H.acked id t) :
    Holding backed H' id u l := by
  refine ⟨h.matching.mono hg.llog, h.terms, h.fits, fun hbacked => ?_⟩
  exact hg.keeps hlaw (fun t ht => hsame t (Nat.le_of_lt_succ ht)) (h.keeps hbacked)

/-- The member moves to a later term. -/
theorem Holding.later (h : Holding backed H id u l) (hlaw : H.Lawful LogEntry.term)
    (hcur : H.current id = u) (hu : u ≤ u') : Holding backed H id u' l := by
  refine ⟨h.matching, ?_, h.fits, fun hbacked => ?_⟩
  · intro x hx
    exact ⟨(h.terms x hx).1, (h.terms x hx).2.trans hu⟩
  · apply (h.keeps hbacked).later (Nat.succ_le_succ hu)
    intro t ht
    exact hlaw.future id t (by omega)

/-- The member takes over a part of the log of its term's leader. -/
theorem Holding.adopts (h : Holding backed H id u l) (hlaw : H.Lawful LogEntry.term)
    (hpmatch : Matches LogEntry.term H.llog p) (hterms : ∀ x ∈ p, 0 < x.term ∧ x.term ≤ u)
    (hfits : ∀ x ∈ p, FitsSegment x.data) (hu : u ∈ H.elected)
    (hin : backed → p <+: H.llog u) (hl : Adopts p l l') : Holding backed H id u l' :=
  ⟨hl.matches h.matching hpmatch, hl.forall_mem h.terms hterms, hl.forall_mem h.fits hfits,
    fun hbacked => (h.keeps hbacked).adopts hlaw hu (hin hbacked) hl⟩

theorem Covered.grow (h : Covered backed q H u snap) (hq : Upward q) (hg : Grows H H')
    (hu : u ≤ u') : Covered backed q H' u' snap := by
  obtain ⟨p, hp, hmatch, hterms, hfits, hcommitted⟩ := h
  refine ⟨p, hp, hmatch.mono hg.llog, ?_, hfits, fun hbacked => ?_⟩
  · intro x hx
    exact ⟨(hterms x hx).1, (hterms x hx).2.trans hu⟩
  · exact hg.committedUpTo hq ((hcommitted hbacked).later hu)

theorem CommitHolds.grow {k : ℕ} (h : CommitHolds q H u k l) (hq : Upward q) (hg : Grows H H')
    (hu : u ≤ u') : CommitHolds q H' u' k l :=
  ⟨h.1, hg.committedUpTo hq (h.2.later hu)⟩

/-- What is committed outlasts what the log takes over from the leader of a later term. -/
theorem CommitHolds.adopts {k : ℕ} (h : CommitHolds q H u k l) (hlaw : H.Lawful LogEntry.term)
    (hchosen : H.Chosen LogEntry.term q) (hu' : u' ∈ H.elected) (hle : u ≤ u')
    (hp : p <+: H.llog u') (hl : Adopts p l l') : CommitHolds q H u' k l' := by
  have hin := committed_in_leader hlaw hchosen (h.2.later hle) hu'
  have hkeep := hl.keeps hp (List.take_prefix k l) hin
  have hlen := hkeep.length_le
  rw [List.length_take_of_le h.1] at hlen
  refine ⟨hlen, ?_⟩
  rw [ take_eq_of_prefix hkeep h.1]
  exact h.2.later hle

theorem CommitHolds.prefix_of {k : ℕ} (h : CommitHolds q H u k p) (hp : p <+: l) :
    CommitHolds q H u k l := by
  refine ⟨h.1.trans hp.length_le, ?_⟩
  rw [← prefix_take hp h.1]
  exact h.2

theorem carries_length {req : AppendEntriesRequest} (h : Carries req p) :
    p.length = req.prevLogIndex + req.entries.length := by
  have := h.prev
  rw [h.entries, List.length_drop]
  omega

section

variable [Crc32]

theorem untouched_state {R : List LogEntry → Prop} {S : Snapshot → Prop}
    (h : LogState R S n l) (hm : Untouched n m) : LogState R S m l := by
  refine ⟨?_, ?_, ?_, h.now, ?_, ?_, ?_⟩
  · rw [hm.log]
    exact h.healthy
  · rw [hm.log]
    exact h.config
  · rw [hm.log]
    exact h.represents
  · rw [hm.snapshotFile]
    exact h.file
  · rw [hm.log, hm.snapshotFile]
    exact h.covered
  · intro img himg
    rcases hm.images img himg with hold | ⟨hwal, hfile, hview⟩
    · exact h.images img hold
    · have hnow := h.image
      refine ⟨?_, ?_, ?_, ?_⟩
      · rw [hwal]
        exact hnow.opens
      · rw [hview]
        exact hnow.log
      · rw [hfile]
        exact hnow.file
      · rw [hview, hfile]
        exact hnow.covered

theorem state_grow (h : LogState (Holding backed H id u) (Covered backed q H u) n l)
    (hq : Upward q) (hlaw : H.Lawful LogEntry.term) (hg : Grows H H')
    (hsame : ∀ t ≤ u, H'.acked id t = H.acked id t) :
    LogState (Holding backed H' id u) (Covered backed q H' u) n l := by
  apply h.weaken
  · intro f hf
    exact hf.grow hlaw hg hsame
  · intro s hs
    exact hs.grow hq hg le_rfl

/-- The member as the cluster goes on around it. -/
theorem Member.grow (h : Member backed q H id n l) (hq : Upward q)
    (hlaw : H.Lawful LogEntry.term) (hg : Grows H H') (hcur : H'.current id = H.current id)
    (hsame : ∀ t ≤ n.ps.currentTerm, H'.acked id t = H.acked id t) :
    Member backed q H' id n l := by
  refine ⟨hcur.trans h.current, state_grow h.state hq hlaw hg hsame, ?_, h.kept, ?_⟩
  · intro s hs
    exact (h.snapshot s hs).grow hq hg le_rfl
  · intro hbacked
    exact (h.committed hbacked).grow hq hg le_rfl

/-- The member in the term that the action leads to, at the start of the action. -/
theorem Member.state_later (h : Member backed q H id n l) (hlaw : H.Lawful LogEntry.term)
    (hq : Upward q) (hu : n.ps.currentTerm ≤ u) :
    LogState (Holding backed H id u) (Covered backed q H u) n.begin l := by
  apply (h.state.begin (h.state.now.later hlaw h.current hu)).weaken (fun f hf => hf)
  intro s hs
  exact hs.grow hq .refl hu

variable (backed q H) in
/-- What an action, or a part of it, leaves in the history that it leads to. -/
structure Next (id : NodeId) (n m : Node) (H' : LogHistory) (l l' : List LogEntry) : Prop where
  grows : Grows H H'
  lawful : H'.Lawful LogEntry.term
  elected : H'.elected = H.elected
  acked : H'.acked = H.acked
  current : H'.current = Function.update H.current id m.ps.currentTerm
  others : ∀ t, (n.role = .leader → t ≠ n.ps.currentTerm) → H'.llog t = H.llog t
  state : LogState (Holding backed H' id m.ps.currentTerm)
    (Covered backed q H' m.ps.currentTerm) m l'
  snapshot : ∀ s, m.snapshot = some s → Covered backed q H' m.ps.currentTerm s
  kept : 0 < m.log.snapshotIndex → m.snapshot ≠ none
  committed : backed → CommitHolds q H' m.ps.currentTerm m.commitIndex l'
  leads : n.role = .leader → m.role = .leader → H.llog n.ps.currentTerm = l →
    H'.llog n.ps.currentTerm = l'

theorem Next.member (h : Next backed q H id n m H' l l') : Member backed q H' id m l' := by
  refine ⟨?_, h.state.begin h.state.now, h.snapshot, h.kept, h.committed⟩
  rw [h.current, Function.update_self]

/-- An action that only moves the member to another term. -/
theorem next_untouched (h : Member backed q H id n l) (hq : Upward q)
    (hlaw : H.Lawful LogEntry.term) (hm : Untouched n.begin m)
    (hu : n.ps.currentTerm ≤ m.ps.currentTerm) :
    Next backed q H id n m (H.advance id m.ps.currentTerm) l l := by
  have hcur : H.current id ≤ m.ps.currentTerm := h.current ▸ hu
  have hg := advance_grows hcur
  have hlaw' := advance_lawful hlaw hcur
  refine ⟨hg, hlaw', rfl, rfl, rfl, fun _ _ => rfl, ?_, ?_, ?_, ?_, fun _ _ hl => hl⟩
  · exact state_grow (untouched_state (h.state_later hlaw hq hu) hm) hq hlaw hg (fun _ _ => rfl)
  · intro s hs
    rw [hm.snapshot] at hs
    exact (h.snapshot s hs).grow hq hg hu
  · rw [hm.log, hm.snapshot]
    exact h.kept
  · intro hbacked
    rw [hm.commitIndex]
    exact (h.committed hbacked).grow hq hg hu

variable (backed q H) in
/-- A request for entries that was sent. One that asks for entries behind the end of the
leader's own log never passes. -/
def AppendSent (req : AppendEntriesRequest) : Prop :=
  req.term ∈ H.elected ∧
    ((∃ p, Carries req p ∧ p <+: H.llog req.term ∧
        (backed → CommitHolds q H req.term req.leaderCommit p)) ∨
      0 < req.prevLogIndex ∧ req.prevLogTerm = 0)

variable (backed q H) in
def InstallSent (req : InstallSnapshotRequest) : Prop :=
  req.term ∈ H.elected ∧ Covered backed q H req.term (snapshotOf req)

/-- A request that passes was made from a log. -/
theorem AppendSent.carries (h : Member backed q H id n l) {req : AppendEntriesRequest}
    (hsent : AppendSent backed q H req) (hpass : Passes n.begin req) :
    ∃ p, Carries req p ∧ p <+: H.llog req.term ∧
      (backed → CommitHolds q H req.term req.leaderCommit p) := by
  rcases hsent.2 with hsent | ⟨hpos, hzero⟩
  · exact hsent
  · obtain ⟨_, _, x, hx, hterm⟩ := h.state.represents.termAt_some (hpass.2 hpos)
    have hxpos := (h.state.now.terms x (List.mem_of_getElem? hx)).1
    omega

/-- An acknowledged request leaves the leader's log up to its entries. -/
structure TookIn (H : LogHistory) (req : AppendEntriesRequest) (n : Node) (l' : List LogEntry) :
    Prop where
  term : n.ps.currentTerm ≤ req.term
  within : req.prevLogIndex + req.entries.length ≤ (H.llog req.term).length
  front : H.front req.term (req.prevLogIndex + req.entries.length) <+: l'

theorem next_appendEntries (h : Member backed q H id n l) (hq : Upward q)
    (hlaw : H.Lawful LogEntry.term) (hchosen : backed → H.Chosen LogEntry.term q)
    {req : AppendEntriesRequest} (hsent : AppendSent backed q H req)
    (hlow : AboveSnapshot n req)
    (hroom : n.log.wal.nextSequence + 2 * req.entries.length < 2 ^ 64) :
    ∃ l', Next backed q H id n (n.begin.onAppendEntries req).2
        (H.advance id (n.begin.onAppendEntries req).2.ps.currentTerm) l l' ∧
      ((n.begin.onAppendEntries req).1.success = true → TookIn H req n l') := by
  have hterm : (n.begin.onAppendEntries req).2.ps.currentTerm = max n.ps.currentTerm req.term :=
    onAppendEntries_currentTerm n.begin req
  have hu : n.ps.currentTerm ≤ (n.begin.onAppendEntries req).2.ps.currentTerm := by
    rw [hterm]
    exact Nat.le_max_left _ _
  obtain ⟨_, ⟨_, hno, hn⟩ | ⟨hpass, _, hn⟩⟩ := onAppendEntries_cases n.begin req
  · have hm : Untouched n.begin (n.begin.onAppendEntries req).2 := by
      rcases hn with hn | hn
      · rw [hn]
        exact .rfl
      · rw [hn]
        exact acceptLeader_untouched _ _ _
    refine ⟨l, next_untouched h hq hlaw hm hu, ?_⟩
    rw [hno]
    exact fun hyes => by cases hyes
  have hle : n.ps.currentTerm ≤ req.term := hpass.1
  rw [Nat.max_eq_right hle] at hterm
  have hcur : H.current id ≤ req.term := h.current ▸ hle
  have hg := advance_grows hcur
  obtain ⟨p, hcarries, hp, hcommit⟩ := hsent.carries h hpass
  have hpmatch := Matches.of_prefix (hlaw.matching req.term) hp
  have hnow := h.state.now.later hlaw h.current hle
  have hclosed : ∀ f, Adopts p l f → Holding backed H id req.term f := fun f hf =>
    hnow.adopts hlaw hpmatch (fun x hx => hlaw.terms req.term x (hp.subset hx)) hcarries.fits
      hsent.1 (fun _ => hp) hf
  obtain ⟨l', hst, hadopt, hall⟩ := onAppendEntries_state (h.state_later hlaw hq hle) hpass
    hcarries (hnow.matching.agree hpmatch) hclosed hlow (Nat.le_of_lt hroom)
  refine ⟨l', ⟨?_, ?_, rfl, rfl, rfl, fun _ _ => rfl, ?_, ?_, ?_, ?_, ?_⟩, ?_⟩
  · rw [hterm]
    exact hg
  · rw [hterm]
    exact advance_lawful hlaw hcur
  · rw [hterm]
    exact state_grow hst hq hlaw hg (fun _ _ => rfl)
  · intro s hs
    rw [(onAppendEntries_same n.begin req).memory] at hs
    rw [hterm]
    exact (h.snapshot s hs).grow hq hg hle
  · rw [(onAppendEntries_same n.begin req).point, (onAppendEntries_same n.begin req).memory]
    exact h.kept
  · intro hbacked
    have hlast := hst.represents.lastIndex
    have hheld := (h.committed hbacked).adopts hlaw (hchosen hbacked) hsent.1 hle hp hadopt
    have hnew := (hcommit hbacked).prefix_of hall
    have hindex : (n.begin.onAppendEntries req).2.commitIndex =
        if req.leaderCommit > n.commitIndex then
          min req.leaderCommit (n.begin.onAppendEntries req).2.log.lastIndex
        else n.commitIndex := by
      rw [hn]
      rfl
    rw [hterm, hindex, hlast]
    split
    · rw [Nat.min_eq_left hnew.1]
      exact hnew.grow hq hg le_rfl
    · exact hheld.grow hq hg le_rfl
  · -- a leader that takes in a request is a leader no more
    intro _ hlead
    rw [onAppendEntries_role, if_neg (Nat.not_lt.mpr hpass.1)] at hlead
    cases hlead
  · intro _
    refine ⟨hle, ?_, ?_⟩
    · rw [← carries_length hcarries]
      exact hp.length_le
    · rw [← carries_length hcarries, History.front, ← List.prefix_iff_eq_take.mp hp]
      exact hall

theorem next_installSnapshot (h : Member backed q H id n l) (hq : Upward q)
    (hlaw : H.Lawful LogEntry.term) (hchosen : backed → H.Chosen LogEntry.term q)
    {req : InstallSnapshotRequest} (hsent : InstallSent backed q H req)
    (htail : KeepsMatchingTail n req) (hroom : n.log.wal.nextSequence < 2 ^ 64) :
    ∃ l', Next backed q H id n (n.begin.onInstallSnapshot req).2
      (H.advance id (n.begin.onInstallSnapshot req).2.ps.currentTerm) l l' := by
  have hterm : (n.begin.onInstallSnapshot req).2.ps.currentTerm = max n.ps.currentTerm req.term :=
    onInstallSnapshot_currentTerm n.begin req
  have hu : n.ps.currentTerm ≤ (n.begin.onInstallSnapshot req).2.ps.currentTerm := by
    rw [hterm]
    exact Nat.le_max_left _ _
  by_cases hle : n.ps.currentTerm ≤ req.term
  · by_cases hi : n.log.snapshotIndex < req.lastIncludedIndex
    · rw [Nat.max_eq_right hle] at hterm
      have hcur : H.current id ≤ req.term := h.current ▸ hle
      have hg := advance_grows hcur
      obtain ⟨p, hp, hpmatch, hpterms, hpfits, hcommit⟩ := hsent.2
      have hnow := h.state.now.later hlaw h.current hle
      have hin : backed → p <+: H.llog req.term := fun hbacked =>
        committed_in_leader hlaw (hchosen hbacked) (hcommit hbacked) hsent.1
      have hclosed : ∀ f, Adopts p l f → Holding backed H id req.term f := fun f hf =>
        hnow.adopts hlaw hpmatch hpterms hpfits hsent.1 hin hf
      obtain ⟨l', hst, hadopt, hall, hindex, hsnap⟩ := onInstallSnapshot_state
        (h.state_later hlaw hq hle) hle hi hp (hnow.matching.agree hpmatch) hclosed hsent.2
        htail hroom
      refine ⟨l', ?_, ?_, rfl, rfl, rfl, fun _ _ => rfl, ?_, ?_, ?_, ?_, ?_⟩
      · rw [hterm]
        exact hg
      · rw [hterm]
        exact advance_lawful hlaw hcur
      · rw [hterm]
        exact state_grow hst hq hlaw hg (fun _ _ => rfl)
      · intro s hs
        rw [hsnap] at hs
        cases hs
        rw [hterm]
        exact hsent.2.grow hq hg le_rfl
      · rw [hsnap]
        simp
      · intro hbacked
        have hheld := (h.committed hbacked).adopts hlaw (hchosen hbacked) hsent.1 hle
          (hin hbacked) hadopt
        have hplen : p.length = req.lastIncludedIndex := hp.length
        have hindex : (n.begin.onInstallSnapshot req).2.commitIndex =
          max n.commitIndex req.lastIncludedIndex := hindex
        have hnew : CommitHolds q H req.term req.lastIncludedIndex l' := by
          rw [← hplen]
          refine ⟨hall.length_le, ?_⟩
          rw [← List.prefix_iff_eq_take.mp hall]
          exact hcommit hbacked
        rw [hterm, hindex]
        rcases Nat.le_total n.commitIndex req.lastIncludedIndex with hmax | hmax
        · rw [Nat.max_eq_right hmax]
          exact hnew.grow hq hg le_rfl
        · rw [Nat.max_eq_left hmax]
          exact hheld.grow hq hg le_rfl
      · intro _ hlead
        have hnot : ¬ req.term < n.begin.ps.currentTerm := Nat.not_lt.mpr hle
        rw [onInstallSnapshot_role, if_neg hnot] at hlead
        cases hlead
    · refine ⟨l, next_untouched h hq hlaw ?_ hu⟩
      rw [onInstallSnapshot_old (n := n.begin) hle (Nat.not_lt.mp hi)]
      exact acceptLeader_untouched _ _ _
  · refine ⟨l, next_untouched h hq hlaw ?_ hu⟩
    have hlt : req.term < n.begin.ps.currentTerm := Nat.not_le.mp hle
    rw [Node.onInstallSnapshot, if_pos hlt]
    exact .rfl

/-- The leader's log grows by the new entry. -/
theorem next_startWrite (h : Member backed q H id n l) (hq : Upward q)
    (hlaw : H.Lawful LogEntry.term) (hrole : n.role = .leader) (hpos : 0 < n.ps.currentTerm)
    (helected : n.ps.currentTerm ∈ H.elected) (hleads : H.llog n.ps.currentTerm = l)
    {data : Bytes} (hfit : FitsSegment data) (hroom : n.log.wal.nextSequence < 2 ^ 64) :
    (n.begin.startWrite data).1 = .ok (l.length + 1) ∧
      Next backed q H id n (n.begin.startWrite data).2
        (H.push n.ps.currentTerm ⟨n.ps.currentTerm, l.length + 1, data⟩) l
        (l ++ [⟨n.ps.currentTerm, l.length + 1, data⟩]) := by
  set x : LogEntry := ⟨n.ps.currentTerm, l.length + 1, data⟩ with hx
  have hg := push_grows (H := H) (t := n.ps.currentTerm) x
  have hlaw' := push_lawful (x := x) hlaw helected rfl hpos
  have hself : (H.push n.ps.currentTerm x).llog n.ps.currentTerm = l ++ [x] := by
    rw [push_llog, hleads]
  have hps : (n.begin.startWrite data).2.ps.currentTerm = n.ps.currentTerm :=
    congrArg PersistentState.currentTerm (startWrite_quiet n.begin data).ps
  have hnow := h.state.now.grow hlaw hg (fun _ _ => rfl)
  have hnew : Holding backed (H.push n.ps.currentTerm x) id n.ps.currentTerm (l ++ [x]) := by
    refine ⟨?_, ?_, ?_, fun hbacked => (hnow.keeps hbacked).extend (List.prefix_append l [x])⟩
    · apply hnow.matching.push
      rw [hx] at hself ⊢
      rw [hself]
    · intro y hy
      rcases List.mem_append.mp hy with hy | hy
      · exact hnow.terms y hy
      · obtain rfl := List.mem_singleton.mp hy
        exact ⟨hpos, le_rfl⟩
    · intro y hy
      rcases List.mem_append.mp hy with hy | hy
      · exact hnow.fits y hy
      · obtain rfl := List.mem_singleton.mp hy
        exact hfit
  have hstart : LogState (Holding backed (H.push n.ps.currentTerm x) id n.ps.currentTerm)
      (Covered backed q (H.push n.ps.currentTerm x) n.ps.currentTerm) n.begin l :=
    state_grow h.state hq hlaw hg (fun _ _ => rfl)
  obtain ⟨hok, hst⟩ := startWrite_state hstart hroom hrole hfit hnew
  refine ⟨hok, hg, hlaw', rfl, rfl, ?_, ?_, ?_, ?_, ?_, ?_, fun _ _ _ => hself⟩
  · rw [hps, ← h.current, Function.update_eq_self]
    rfl
  · intro t ht
    exact push_of_ne H x (ht hrole)
  · rw [hps]
    exact hst
  · intro s hs
    rw [(startWrite_same n.begin data).memory] at hs
    rw [hps]
    exact (h.snapshot s hs).grow hq hg le_rfl
  · rw [(startWrite_same n.begin data).point, (startWrite_same n.begin data).memory]
    exact h.kept
  · intro hbacked
    rw [hps, startWrite_commitIndex]
    exact ((h.committed hbacked).grow hq hg le_rfl).prefix_of (List.prefix_append l [x])

theorem next_writeRefused (h : Member backed q H id n l) (hq : Upward q)
    (hlaw : H.Lawful LogEntry.term) {data : Bytes}
    (hnot : ¬ (n.role = .leader ∧ FitsSegment data)) :
    Next backed q H id n (n.begin.startWrite data).2
      (H.advance id (n.begin.startWrite data).2.ps.currentTerm) l l := by
  have hps : (n.begin.startWrite data).2.ps.currentTerm = n.ps.currentTerm :=
    congrArg PersistentState.currentTerm (startWrite_quiet n.begin data).ps
  have hcur : H.current id ≤ n.ps.currentTerm := Nat.le_of_eq h.current
  have hg := advance_grows hcur
  obtain ⟨_, hst⟩ := startWrite_refused h.state hnot
  rw [hps]
  refine ⟨hg, advance_lawful hlaw hcur, rfl, rfl, ?_, fun _ _ => rfl, ?_, ?_, ?_, ?_,
    fun _ _ hl => hl⟩
  · rw [hps]
    rfl
  · rw [hps]
    exact state_grow hst hq hlaw hg (fun _ _ => rfl)
  · intro s hs
    rw [(startWrite_same n.begin data).memory] at hs
    rw [hps]
    exact (h.snapshot s hs).grow hq hg le_rfl
  · rw [(startWrite_same n.begin data).point, (startWrite_same n.begin data).memory]
    exact h.kept
  · intro hbacked
    rw [hps, startWrite_commitIndex]
    exact (h.committed hbacked).grow hq hg le_rfl

/-- What a leader that waits for its peers writes. -/
structure Writes (H : LogHistory) (n : Node) (l : List LogEntry) (index : ℕ) (data : Bytes) :
    Prop where
  role : n.role = .leader
  last : index = l.length
  entry : l[index - 1]? = some ⟨n.ps.currentTerm, index, data⟩
  point : n.log.snapshotIndex < index
  leads : H.llog n.ps.currentTerm = l

theorem next_finishWrite (h : Member backed q H id n l) (hq : Upward q)
    (hlaw : H.Lawful LogEntry.term) {index : ℕ} {data : Bytes} (hw : Writes H n l index data)
    (appends : List (NodeId × Option AppendEntriesResponse))
    (snapshots : List (NodeId × Option InstallSnapshotResponse))
    (hroom : n.log.wal.nextSequence < 2 ^ 64) (hindex : index < 2 ^ 64)
    (hterm : n.ps.currentTerm < 2 ^ 64)
    (hcommit : backed →
      n.quorum ≤ (n.begin.finishReplication index appends snapshots).1 →
      H.Committed LogEntry.term q n.ps.currentTerm index) :
    Next backed q H id n (n.begin.finishWrite index appends snapshots).2
      (H.advance id (n.begin.finishWrite index appends snapshots).2.ps.currentTerm) l l := by
  rw [finishWrite_eq]
  set m := (n.begin.finishReplication index appends snapshots).2 with hm
  set acks := (n.begin.finishReplication index appends snapshots).1 with hacks
  have hrep : Untouched n.begin m := finishReplication_untouched n.begin index appends snapshots
  have hquorum : m.quorum = n.quorum := finishReplication_quorum n.begin index appends snapshots
  have hps : (m.commitWrite index acks).2.ps.currentTerm = m.ps.currentTerm :=
    congrArg PersistentState.currentTerm (commitWrite_quiet m index acks).ps
  have hu : n.ps.currentTerm ≤ m.ps.currentTerm := by
    obtain ⟨_, ⟨ni, mi, heq⟩ | ⟨t, ni, mi, _, hlt, heq⟩⟩ :=
      finishReplication_cases n.begin index appends snapshots
    · rw [hm, heq]
      exact le_rfl
    · rw [hm, heq]
      exact Nat.le_of_lt hlt
  have hnext := next_untouched h hq hlaw hrep hu
  have hcur : H.current id ≤ m.ps.currentTerm := h.current ▸ hu
  have hg := advance_grows hcur
  have hwhole : l.take index = l := List.take_of_length_le (Nat.le_of_eq hw.last.symm)
  have hcommitted : backed → m.quorum ≤ acks →
      (H.advance id m.ps.currentTerm).CommittedUpTo LogEntry.term q m.ps.currentTerm l := by
    intro hbacked hle
    refine hg.committedUpTo hq (Or.inr ⟨_, hu, index, hcommit hbacked (hquorum ▸ hle), ?_⟩)
    rw [History.front, hw.leads, hwhole]
  have hpos : 0 < index := Nat.zero_lt_of_lt hw.point
  have hlast : lastTermOf l = n.ps.currentTerm := by
    have := lastTermOf_take hw.entry
    rw [Nat.sub_add_cancel hpos, hwhole] at this
    exact this
  have hnow := hnext.state.now
  have hsnap : m.quorum ≤ acks → Covered backed q (H.advance id m.ps.currentTerm)
      m.ps.currentTerm ⟨index, n.ps.currentTerm,
        encodeEntries ((l.take index).drop m.log.snapshotIndex)⟩ := by
    intro hle
    refine ⟨l, ⟨h.state.represents.numbered, hw.last.symm, hlast, hindex, hterm⟩, hnow.matching,
      hnow.terms, hnow.fits, fun hbacked => hcommitted hbacked hle⟩
  have hpoint : m.log.snapshotIndex < index := by
    rw [hrep.log]
    exact hw.point
  have hseq : m.log.wal.nextSequence < 2 ^ 64 := by
    rw [hrep.log]
    exact hroom
  obtain ⟨hst, hindexes, hsnapshots⟩ := commitWrite_state hnext.state acks hseq hpoint hw.entry
    hsnap
  refine ⟨?_, ?_, rfl, rfl, rfl, fun _ _ => rfl, ?_, ?_, ?_, ?_, fun _ _ hl => hl⟩
  · rw [hps]
    exact hg
  · rw [hps]
    exact hnext.lawful
  · rw [hps]
    exact hst
  · intro s hs
    rw [hps]
    rcases hsnapshots with ⟨hsame, _⟩ | hnew
    · rw [hsame] at hs
      exact hnext.snapshot s hs
    · rw [hnew] at hs
      cases hs
      rcases hindexes with ⟨_, herr⟩ | ⟨_, hle, _⟩
      · rcases commitWrite_cases m index acks with ⟨_, heq⟩ | ⟨hok, _⟩
        · rw [heq] at hnew
          exact hnext.snapshot _ hnew
        · rw [herr] at hok
          cases hok
      · exact hsnap hle
  · rcases hsnapshots with ⟨hsame, hlog⟩ | hnew
    · rw [hsame, hlog]
      exact hnext.kept
    · rw [hnew]
      simp
  · intro hbacked
    rw [hps]
    rcases hindexes with ⟨hsame, _⟩ | ⟨hnew, hle, _⟩
    · rw [hsame]
      exact hnext.committed hbacked
    · rw [hnew]
      refine ⟨Nat.le_of_eq hw.last, ?_⟩
      rw [hwhole]
      exact hcommitted hbacked hle

end

end RaftNodeEffects
