import DistributedWal.RaftNodeFrame

/-! # What each handler can do

One lemma for each handler says all the ways it can end. The proofs about votes,
elections and logs use these instead of the handlers' definitions.
-/
namespace RaftNodeHandlers

open WalEntry ReplicatedLog RaftPersistentState RaftSnapshot RaftNode RaftNodeFrame

/-- The start of `on_request_vote`: a higher term is taken over. -/
def observeTerm (n : Node) (term : ℕ) : Node :=
  if term > n.ps.currentTerm then { n.advanceTerm term with role := .follower } else n

theorem observeTerm_currentTerm (n : Node) (term : ℕ) :
    (observeTerm n term).ps.currentTerm = max n.ps.currentTerm term := by
  rw [observeTerm]
  split
  · rename_i h
    exact (Nat.max_eq_right (Nat.le_of_lt h)).symm
  · rename_i h
    exact (Nat.max_eq_left (Nat.not_lt.mp h)).symm

theorem acceptLeader_ps (n : Node) (term : ℕ) (leader : NodeId) :
    (n.acceptLeader term leader).ps =
      if term > n.ps.currentTerm then n.ps.advanceTerm term else n.ps := by
  rw [Node.acceptLeader]
  split <;> rfl

theorem acceptLeader_identity (n : Node) (term : ℕ) (leader : NodeId) :
    (n.acceptLeader term leader).id = n.id ∧ (n.acceptLeader term leader).peers = n.peers := by
  rw [Node.acceptLeader]
  split <;> exact ⟨rfl, rfl⟩

theorem acceptLeader_log (n : Node) (term : ℕ) (leader : NodeId) :
    (n.acceptLeader term leader).log = n.log ∧
      (n.acceptLeader term leader).commitIndex = n.commitIndex ∧
      (n.acceptLeader term leader).snapshot = n.snapshot ∧
      (n.acceptLeader term leader).snapshotFile = n.snapshotFile ∧
      (n.acceptLeader term leader).entriesSinceSnapshot = n.entriesSinceSnapshot := by
  rw [Node.acceptLeader]
  split <;> exact ⟨rfl, rfl, rfl, rfl, rfl⟩

/-- The rest of `on_request_vote`. -/
def decideVote (n : Node) (req : RequestVoteRequest) : RequestVoteResponse × Node :=
  if req.term < n.ps.currentTerm then (⟨n.ps.currentTerm, false⟩, n)
  else if n.alreadyVotedForOther req.candidateId then (⟨n.ps.currentTerm, false⟩, n)
  else if ¬ n.logOk req then (⟨n.ps.currentTerm, false⟩, n)
  else (⟨(n.recordVote req.candidateId).ps.currentTerm, true⟩, n.recordVote req.candidateId)

theorem onRequestVote_eq (n : Node) (req : RequestVoteRequest) :
    n.onRequestVote req = decideVote (observeTerm n req.term) req := rfl

/-- Either the vote is refused, or it was open to the candidate and is recorded. -/
theorem onRequestVote_cases (n : Node) (req : RequestVoteRequest) :
    (n.onRequestVote req).1.term = (n.onRequestVote req).2.ps.currentTerm ∧
    ((n.onRequestVote req).1.voteGranted = false ∧
        (n.onRequestVote req).2 = observeTerm n req.term ∨
      (n.onRequestVote req).1.voteGranted = true ∧
        (n.onRequestVote req).2 = (observeTerm n req.term).recordVote req.candidateId ∧
        (observeTerm n req.term).ps.currentTerm = req.term ∧
        (∀ v, (observeTerm n req.term).ps.votedFor = some v → v = req.candidateId) ∧
        (observeTerm n req.term).logOk req = true) := by
  have hterm := observeTerm_currentTerm n req.term
  rw [onRequestVote_eq]
  generalize observeTerm n req.term = m at hterm ⊢
  rw [decideVote]
  split
  · exact ⟨rfl, Or.inl ⟨rfl, rfl⟩⟩
  · rename_i hlt
    split
    · exact ⟨rfl, Or.inl ⟨rfl, rfl⟩⟩
    · rename_i hvoted
      split
      · exact ⟨rfl, Or.inl ⟨rfl, rfl⟩⟩
      · rename_i hlog
        refine ⟨rfl, Or.inr ⟨rfl, rfl, by omega, ?_, by simpa using hlog⟩⟩
        intro v hv
        simpa [Node.alreadyVotedForOther, hv] using hvoted

theorem countVotes_ok {n : Node} {votes k : ℕ} {results : List (Option RequestVoteResponse)}
    (h : n.countVotes votes results = .ok k) :
    k = votes + (results.filter (fun r => r.any RequestVoteResponse.voteGranted)).length ∧
      ∀ r, some r ∈ results → r.term ≤ n.ps.currentTerm := by
  induction results generalizing votes with
  | nil =>
    cases h
    simp
  | cons result results ih =>
    cases result with
    | none =>
      obtain ⟨hk, hall⟩ := ih h
      exact ⟨by simpa using hk, by simpa using hall⟩
    | some resp =>
      rw [Node.countVotes] at h
      split at h
      · cases h
      · rename_i hle
        obtain ⟨hk, hall⟩ := ih h
        constructor
        · rw [hk]
          cases hg : resp.voteGranted
          · simp [hg]
          · simp [hg]
            omega
        · intro r hr
          rcases List.mem_cons.mp hr with hr | hr
          · cases hr
            exact Nat.not_lt.mp hle
          · exact hall r hr

theorem countVotes_error {n m : Node} {votes : ℕ}
    {results : List (Option RequestVoteResponse)} (h : n.countVotes votes results = .error m) :
    ∃ r, some r ∈ results ∧ n.ps.currentTerm < r.term ∧ m = n.stepDown r.term := by
  induction results generalizing votes with
  | nil => cases h
  | cons result results ih =>
    cases result with
    | none =>
      obtain ⟨r, hr, h⟩ := ih h
      exact ⟨r, List.mem_cons_of_mem _ hr, h⟩
    | some resp =>
      rw [Node.countVotes] at h
      split at h
      · rename_i hgt
        cases h
        exact ⟨resp, by simp, hgt, rfl⟩
      · obtain ⟨r, hr, h⟩ := ih h
        exact ⟨r, List.mem_cons_of_mem _ hr, h⟩

theorem countVotes_of_le {n : Node} {results : List (Option RequestVoteResponse)}
    (h : ∀ r, some r ∈ results → r.term ≤ n.ps.currentTerm) (votes : ℕ) :
    ∃ k, n.countVotes votes results = .ok k := by
  induction results generalizing votes with
  | nil => exact ⟨votes, rfl⟩
  | cons result results ih =>
    have hrest : ∀ r, some r ∈ results → r.term ≤ n.ps.currentTerm :=
      fun r hr => h r (List.mem_cons_of_mem _ hr)
    cases result with
    | none => exact ih hrest votes
    | some resp =>
      have hle := h resp (List.mem_cons_self ..)
      rw [Node.countVotes, if_neg (Nat.not_lt.mpr hle)]
      exact ih hrest _

/-- An election that nobody outranks and a majority supports is won. -/
theorem finishElection_won {n : Node} {results : List (Option RequestVoteResponse)}
    (hrole : n.role = .candidate) (hterm : ∀ r, some r ∈ results → r.term ≤ n.ps.currentTerm)
    (hq : n.quorum ≤ 1 +
      (results.filter (fun r => r.any RequestVoteResponse.voteGranted)).length) :
    n.finishElection results = n.becomeLeader := by
  obtain ⟨k, hk⟩ := countVotes_of_le hterm 1
  rw [← (countVotes_ok hk).1] at hq
  simp [Node.finishElection, hk, hrole, hq]

/-- An election ends by stepping down, without a change, as leader or as follower. -/
theorem finishElection_cases (n : Node) (results : List (Option RequestVoteResponse)) :
    (∃ r, some r ∈ results ∧ n.ps.currentTerm < r.term ∧
      n.finishElection results = n.stepDown r.term) ∨
    n.finishElection results = n ∧ n.role ≠ .candidate ∨
    n.finishElection results = { n with role := .follower } ∨
    n.finishElection results = n.becomeLeader ∧ n.role = .candidate ∧
      (∀ r, some r ∈ results → r.term ≤ n.ps.currentTerm) ∧
      n.quorum ≤ 1 +
        (results.filter (fun r => r.any RequestVoteResponse.voteGranted)).length := by
  rw [Node.finishElection]
  split
  · rename_i m hm
    obtain ⟨r, hr, hlt, rfl⟩ := countVotes_error hm
    exact Or.inl ⟨r, hr, hlt, rfl⟩
  · rename_i votes hv
    obtain ⟨hk, hall⟩ := countVotes_ok hv
    split
    · rename_i hrole
      exact Or.inr (Or.inl ⟨rfl, hrole⟩)
    · rename_i hrole
      split
      · rename_i hq
        exact Or.inr (Or.inr (Or.inr ⟨rfl, by simpa using hrole, hall, hk ▸ hq⟩))
      · exact Or.inr (Or.inr (Or.inl rfl))

theorem finishHeartbeats_cases (n : Node) (results : List (Option AppendEntriesResponse)) :
    n.finishHeartbeats results = n ∨
      ∃ r, some r ∈ results ∧ n.ps.currentTerm < r.term ∧
        n.finishHeartbeats results = n.stepDown r.term := by
  induction results with
  | nil => exact Or.inl rfl
  | cons result results ih =>
    cases result with
    | none =>
      rw [Node.finishHeartbeats]
      rcases ih with h | ⟨r, hr, h⟩
      · exact Or.inl h
      · exact Or.inr ⟨r, List.mem_cons_of_mem _ hr, h⟩
    | some resp =>
      rw [Node.finishHeartbeats]
      split
      · rename_i hgt
        exact Or.inr ⟨resp, by simp, hgt, rfl⟩
      · rcases ih with h | ⟨r, hr, h⟩
        · exact Or.inl h
        · exact Or.inr ⟨r, List.mem_cons_of_mem _ hr, h⟩

/-- A node with other replication progress. -/
def withProgress (n : Node) (nextIndex matchIndex : NodeId → Option ℕ) : Node :=
  { n with nextIndex := nextIndex, matchIndex := matchIndex }

/-- The acks counted over AppendEntries results. -/
def appendAcks (results : List (NodeId × Option AppendEntriesResponse)) : ℕ :=
  (results.filter (fun p => p.2.any AppendEntriesResponse.success)).length

def snapshotAcks (results : List (NodeId × Option InstallSnapshotResponse)) : ℕ :=
  (results.filter (fun p => p.2.any InstallSnapshotResponse.success)).length

theorem appendAcks_cons (p : NodeId × Option AppendEntriesResponse)
    (results : List (NodeId × Option AppendEntriesResponse)) :
    appendAcks (p :: results) =
      (if p.2.any AppendEntriesResponse.success then 1 else 0) + appendAcks results := by
  simp only [appendAcks, List.filter_cons]
  split <;> simp [Nat.add_comm]

/-- Counting AppendEntries results: progress, and maybe a step down. -/
theorem countAppends_cases (n : Node) (upTo acks : ℕ)
    (results : List (NodeId × Option AppendEntriesResponse)) :
    (∃ k m, n.countAppends upTo acks results = .ok (k, m) ∧ k = acks + appendAcks results ∧
      ∃ ni mi, m = withProgress n ni mi) ∨
    (∃ k m, n.countAppends upTo acks results = .error (k, m) ∧
      k ≤ acks + appendAcks results ∧
      ∃ p r ni mi, (p, some r) ∈ results ∧ n.ps.currentTerm < r.term ∧
        m = (withProgress n ni mi).stepDown r.term) := by
  induction results generalizing n acks with
  | nil => exact Or.inl ⟨acks, n, rfl, rfl, n.nextIndex, n.matchIndex, rfl⟩
  | cons p results ih =>
    obtain ⟨peer, result⟩ := p
    rw [Node.countAppends]
    split
    · rename_i hgt
      cases result with
      | none => simp at hgt
      | some r =>
        exact Or.inr ⟨_, _, rfl, Nat.le_add_right _ _, peer, r, n.nextIndex, n.matchIndex,
          by simp, hgt, rfl⟩
    · split
      · rename_i hs
        cases result with
        | none => simp at hs
        | some r =>
          have hany : (some r).any AppendEntriesResponse.success = true := by simpa using hs
          rcases ih { n with
              matchIndex := Function.update n.matchIndex peer (some upTo)
              nextIndex := Function.update n.nextIndex peer (some (upTo + 1)) } (acks + 1) with
            ⟨k, m, hc, hk, ni, mi, hm⟩ | ⟨k, m, hc, hk, p, r', ni, mi, hmem, hlt, hm⟩
          · refine Or.inl ⟨k, m, hc, ?_, ni, mi, hm⟩
            rw [appendAcks_cons, if_pos hany]
            omega
          · refine Or.inr ⟨k, m, hc, ?_, p, r', ni, mi, List.mem_cons_of_mem _ hmem, hlt, hm⟩
            rw [appendAcks_cons, if_pos hany]
            omega
      · rename_i hs
        have hany : ¬ result.any AppendEntriesResponse.success = true := by
          cases result with
          | none => simp
          | some r => simpa using hs
        split
        · rcases ih { n with
              nextIndex := Function.update n.nextIndex peer
                (some (result.getD ⟨0, false, 0, 0⟩).conflictIndex) } acks with
            ⟨k, m, hc, hk, ni, mi, hm⟩ | ⟨k, m, hc, hk, p, r', ni, mi, hmem, hlt, hm⟩
          · exact Or.inl ⟨k, m, hc, by rw [appendAcks_cons, if_neg hany]; omega, ni, mi, hm⟩
          · exact Or.inr ⟨k, m, hc, by rw [appendAcks_cons, if_neg hany]; omega, p, r', ni, mi,
              List.mem_cons_of_mem _ hmem, hlt, hm⟩
        · rcases ih n acks with
            ⟨k, m, hc, hk, ni, mi, hm⟩ | ⟨k, m, hc, hk, p, r', ni, mi, hmem, hlt, hm⟩
          · exact Or.inl ⟨k, m, hc, by rw [appendAcks_cons, if_neg hany]; omega, ni, mi, hm⟩
          · exact Or.inr ⟨k, m, hc, by rw [appendAcks_cons, if_neg hany]; omega, p, r', ni, mi,
              List.mem_cons_of_mem _ hmem, hlt, hm⟩

theorem snapshotAcks_cons (p : NodeId × Option InstallSnapshotResponse)
    (results : List (NodeId × Option InstallSnapshotResponse)) :
    snapshotAcks (p :: results) =
      (if p.2.any InstallSnapshotResponse.success then 1 else 0) + snapshotAcks results := by
  simp only [snapshotAcks, List.filter_cons]
  split <;> simp [Nat.add_comm]

theorem countSnapshots_cases (n : Node) (acks : ℕ)
    (results : List (NodeId × Option InstallSnapshotResponse)) :
    (n.countSnapshots acks results).1 ≤ acks + snapshotAcks results ∧
    ((∃ ni mi, (n.countSnapshots acks results).2 = withProgress n ni mi) ∨
      ∃ p r ni mi, (p, some r) ∈ results ∧ n.ps.currentTerm < r.term ∧
        (n.countSnapshots acks results).2 = (withProgress n ni mi).stepDown r.term) := by
  induction results generalizing n acks with
  | nil => exact ⟨Nat.le_add_right _ _, Or.inl ⟨n.nextIndex, n.matchIndex, rfl⟩⟩
  | cons p results ih =>
    obtain ⟨peer, result⟩ := p
    cases result with
    | none =>
      rw [Node.countSnapshots, snapshotAcks_cons]
      obtain ⟨hk, hm | ⟨p, r, ni, mi, hmem, hlt, hm⟩⟩ := ih n acks
      · exact ⟨by simpa using hk, Or.inl hm⟩
      · exact ⟨by simpa using hk, Or.inr ⟨p, r, ni, mi, List.mem_cons_of_mem _ hmem, hlt, hm⟩⟩
    | some resp =>
      rw [Node.countSnapshots, snapshotAcks_cons]
      split
      · rename_i hgt
        exact ⟨Nat.le_add_right _ _, Or.inr ⟨peer, resp, n.nextIndex, n.matchIndex,
          by simp, hgt, rfl⟩⟩
      · split
        · rename_i hs
          obtain ⟨hk, hm | ⟨p, r, ni, mi, hmem, hlt, hm⟩⟩ := ih { n with
              matchIndex := Function.update n.matchIndex peer (some n.log.snapshotIndex)
              nextIndex := Function.update n.nextIndex peer (some (n.log.snapshotIndex + 1)) }
            (acks + 1)
          · refine ⟨?_, Or.inl hm⟩
            simp only [Option.any_some, hs, if_true]
            omega
          · refine ⟨?_, Or.inr ⟨p, r, ni, mi, List.mem_cons_of_mem _ hmem, hlt, hm⟩⟩
            simp only [Option.any_some, hs, if_true]
            omega
        · rename_i hs
          obtain ⟨hk, hm | ⟨p, r, ni, mi, hmem, hlt, hm⟩⟩ := ih n acks
          · exact ⟨by simp only [Option.any_some, hs]; simpa using hk, Or.inl hm⟩
          · exact ⟨by simp only [Option.any_some, hs]; simpa using hk,
              Or.inr ⟨p, r, ni, mi, List.mem_cons_of_mem _ hmem, hlt, hm⟩⟩

/-- A term that a result carries. -/
def Reported (term : ℕ) (appends : List (NodeId × Option AppendEntriesResponse))
    (snapshots : List (NodeId × Option InstallSnapshotResponse)) : Prop :=
  (∃ p r, (p, some r) ∈ appends ∧ r.term = term) ∨
    ∃ p r, (p, some r) ∈ snapshots ∧ r.term = term

theorem finishReplication_cases (n : Node) (upTo : ℕ)
    (appends : List (NodeId × Option AppendEntriesResponse))
    (snapshots : List (NodeId × Option InstallSnapshotResponse)) :
    (n.finishReplication upTo appends snapshots).1 ≤
      1 + appendAcks appends + snapshotAcks snapshots ∧
    ((∃ ni mi, (n.finishReplication upTo appends snapshots).2 = withProgress n ni mi) ∨
      ∃ t ni mi, Reported t appends snapshots ∧ n.ps.currentTerm < t ∧
        (n.finishReplication upTo appends snapshots).2 =
          (withProgress n ni mi).stepDown t) := by
  rw [Node.finishReplication]
  rcases countAppends_cases n upTo 1 appends with
    ⟨k, m, hc, hk, ni, mi, hm⟩ | ⟨k, m, hc, hk, p, r, ni, mi, hmem, hlt, hm⟩
  · rw [hc]
    dsimp only
    have hps : m.ps = n.ps := by rw [hm]; rfl
    obtain ⟨hle, hm' | ⟨p, r, ni', mi', hmem, hlt, hm'⟩⟩ := countSnapshots_cases m k snapshots
    · obtain ⟨ni', mi', hm'⟩ := hm'
      exact ⟨by omega, Or.inl ⟨ni', mi', by rw [hm', hm]; rfl⟩⟩
    · refine ⟨by omega, Or.inr ⟨r.term, ni', mi', Or.inr ⟨p, r, hmem, rfl⟩, hps ▸ hlt, ?_⟩⟩
      rw [hm', hm]
      rfl
  · rw [hc]
    exact ⟨by dsimp only; omega, Or.inr ⟨r.term, ni, mi, Or.inl ⟨p, r, hmem, rfl⟩, hlt, hm⟩⟩

theorem countSnapshots_of_le {n : Node} {acks : ℕ}
    {results : List (NodeId × Option InstallSnapshotResponse)}
    (h : ∀ p r, (p, some r) ∈ results → r.term ≤ n.ps.currentTerm) :
    (n.countSnapshots acks results).1 = acks + snapshotAcks results := by
  induction results generalizing n acks with
  | nil => rfl
  | cons p results ih =>
    obtain ⟨peer, result⟩ := p
    have hrest : ∀ p r, (p, some r) ∈ results → r.term ≤ n.ps.currentTerm :=
      fun p r hr => h p r (List.mem_cons_of_mem _ hr)
    rw [snapshotAcks_cons]
    cases result with
    | none =>
      rw [Node.countSnapshots, ih hrest, Option.any_none, if_neg Bool.false_ne_true,
        Nat.zero_add]
    | some resp =>
      have hle := h peer resp (List.mem_cons_self ..)
      rw [Node.countSnapshots, if_neg (Nat.not_lt.mpr hle), Option.any_some]
      split
      · dsimp only
        rw [ih (by exact hrest)]
        exact Nat.add_assoc ..
      · rw [ih hrest, Nat.zero_add]

/-- Without a higher term every success is counted. -/
theorem finishReplication_of_le {n : Node} {upTo : ℕ}
    {appends : List (NodeId × Option AppendEntriesResponse)}
    {snapshots : List (NodeId × Option InstallSnapshotResponse)}
    (h : ∀ t, Reported t appends snapshots → t ≤ n.ps.currentTerm) :
    (n.finishReplication upTo appends snapshots).1 =
      1 + appendAcks appends + snapshotAcks snapshots := by
  rw [Node.finishReplication]
  rcases countAppends_cases n upTo 1 appends with
    ⟨k, m, hc, hk, ni, mi, hm⟩ | ⟨_, _, _, _, p, r, _, _, hmem, hlt, _⟩
  · have hps : m.ps = n.ps := by
      rw [hm]
      rfl
    rw [hc]
    dsimp only
    rw [countSnapshots_of_le, hk]
    intro p r hr
    rw [hps]
    exact h r.term (Or.inr ⟨p, r, hr, rfl⟩)
  · exact absurd (h r.term (Or.inl ⟨p, r, hmem, rfl⟩)) (Nat.not_le.mpr hlt)

theorem finishReplication_quorum (n : Node) (upTo : ℕ)
    (appends : List (NodeId × Option AppendEntriesResponse))
    (snapshots : List (NodeId × Option InstallSnapshotResponse)) :
    (n.finishReplication upTo appends snapshots).2.quorum = n.quorum := by
  obtain ⟨_, ⟨ni, mi, hn⟩ | ⟨t, ni, mi, _, _, hn⟩⟩ :=
    finishReplication_cases n upTo appends snapshots
  · rw [hn]
    rfl
  · rw [hn]
    rfl

/-- A node that has just opened its files. -/
structure Started (id : NodeId) (peers : List NodeId)
    (stateFile snapshotFile : Option LittleEndianCodec.Bytes) (log : RaftLog) (n : Node) :
    Prop where
  id : n.id = id
  peers : n.peers = peers
  ps : n.ps = PersistentState.open stateFile
  log : n.log = log
  role : n.role = .follower
  commitIndex : n.commitIndex = 0
  snapshot : n.snapshot = match Snapshot.load snapshotFile with
    | .ok s => s
    | .error _ => none
  snapshotFile : n.snapshotFile = snapshotFile
  trail : n.trail = []

theorem start_cases [Crc32] {id : NodeId} {peers : List NodeId}
    {stateFile snapshotFile : Option LittleEndianCodec.Bytes} {wal : WalSegment.Dir} {n : Node}
    (h : Node.start id peers stateFile wal snapshotFile = .ok n) :
    ∃ log, RaftLog.open walConfig wal = .ok log ∧
      Started id peers stateFile snapshotFile log n := by
  rw [Node.start] at h
  split at h
  · cases h
  · rename_i log hopen
    cases h
    exact ⟨log, hopen, rfl, rfl, rfl, rfl, rfl, rfl, rfl, rfl, rfl⟩

theorem start_ok [Crc32] (id : NodeId) (peers : List NodeId)
    (stateFile snapshotFile : Option LittleEndianCodec.Bytes) {wal : WalSegment.Dir}
    {log : RaftLog} (h : RaftLog.open walConfig wal = .ok log) :
    ∃ n, Node.start id peers stateFile wal snapshotFile = .ok n ∧
      Started id peers stateFile snapshotFile log n := by
  simp only [Node.start, h]
  exact ⟨_, rfl, rfl, rfl, rfl, rfl, rfl, rfl, rfl, rfl, rfl⟩

section

variable {P : ℕ → Option NodeId → Prop} {n : Node}

theorem observeTerm_keeps (h : Keeps P n) {t : ℕ} (ht : t > n.ps.currentTerm → t < 2 ^ 64)
    (hP : t > n.ps.currentTerm → P t none) : Keeps P (observeTerm n t) := by
  rw [observeTerm]
  split
  · rename_i hgt
    exact (h.advanceTerm (ht hgt) (hP hgt)).volatile rfl rfl
  · exact h

variable [Crc32]

theorem onAppendEntries_keeps (h : Keeps P n) {req : AppendEntriesRequest}
    (ht : req.term > n.ps.currentTerm → req.term < 2 ^ 64)
    (hP : req.term > n.ps.currentTerm → P req.term none) :
    Keeps P (n.onAppendEntries req).2 := by
  have hacc := h.acceptLeader req.leaderId ht hP
  rw [Node.onAppendEntries]
  split
  · exact h
  · dsimp only
    split
    · exact hacc
    · have hst := hacc.quiet (storeEntries_quiet _ req.entries)
      dsimp only
      split
      · exact hst.volatile rfl rfl
      · exact hst

/-- Both handlers of a leader's calls do to the term and the vote what `acceptLeader`
does, unless the call is stale. -/
theorem onAppendEntries_ps (n : Node) (req : AppendEntriesRequest) :
    (n.onAppendEntries req).2.ps =
      if req.term > n.ps.currentTerm then n.ps.advanceTerm req.term else n.ps := by
  have hacc := acceptLeader_ps n req.term req.leaderId
  rw [Node.onAppendEntries]
  split
  · rename_i hlt
    rw [if_neg (by omega)]
  · dsimp only
    split
    · exact hacc
    · have hq := (storeEntries_quiet (n.acceptLeader req.term req.leaderId) req.entries).ps
      dsimp only
      split
      · exact hq.trans hacc
      · exact hq.trans hacc

/-- A snapshot from a leader is refused, known already, or saved and journalled. Only what is
held in memory depends on the answer of the WAL. -/
theorem onInstallSnapshot_node (n : Node) (req : InstallSnapshotRequest) :
    req.term < n.ps.currentTerm ∧ (n.onInstallSnapshot req).2 = n ∨
      ¬ req.term < n.ps.currentTerm ∧
        ((n.onInstallSnapshot req).2 = n.acceptLeader req.term req.leaderId ∨
          n.log.snapshotIndex < req.lastIncludedIndex ∧ ∃ commit since snap,
            (n.onInstallSnapshot req).2 =
              { (((n.acceptLeader req.term req.leaderId).saveSnapshot
                  ⟨req.lastIncludedIndex, req.lastIncludedTerm, req.data⟩).installLog
                    req.lastIncludedIndex req.lastIncludedTerm).2 with
                commitIndex := commit, entriesSinceSnapshot := since, snapshot := snap }) := by
  have hlog := (acceptLeader_log n req.term req.leaderId).1
  rw [Node.onInstallSnapshot]
  split
  · rename_i hlt
    exact Or.inl ⟨hlt, rfl⟩
  · rename_i hnot
    refine Or.inr ⟨hnot, ?_⟩
    dsimp only
    split
    · exact Or.inl rfl
    · rename_i hi
      rw [hlog] at hi
      refine Or.inr ⟨Nat.not_le.mp hi, ?_⟩
      split
      · rename_i m hm
        rw [← show _ = m from congrArg Prod.snd hm]
        exact ⟨_, _, _, rfl⟩
      · rename_i m hm
        rw [← show _ = m from congrArg Prod.snd hm]
        exact ⟨_, _, _, rfl⟩

theorem onInstallSnapshot_keeps (h : Keeps P n) {req : InstallSnapshotRequest}
    (ht : req.term > n.ps.currentTerm → req.term < 2 ^ 64)
    (hP : req.term > n.ps.currentTerm → P req.term none) :
    Keeps P (n.onInstallSnapshot req).2 := by
  have hacc := h.acceptLeader req.leaderId ht hP
  rcases onInstallSnapshot_node n req with ⟨_, hn⟩ | ⟨_, hn | ⟨_, _, _, _, hn⟩⟩
  · rw [hn]
    exact h
  · rw [hn]
    exact hacc
  · rw [hn]
    have hinst := fun s i t => (hacc.quiet (saveSnapshot_quiet _ s)).quiet (installLog_quiet _ i t)
    exact (hinst _ _ _).volatile rfl rfl

theorem onInstallSnapshot_ps (n : Node) (req : InstallSnapshotRequest) :
    (n.onInstallSnapshot req).2.ps =
      if req.term > n.ps.currentTerm then n.ps.advanceTerm req.term else n.ps := by
  have hacc := acceptLeader_ps n req.term req.leaderId
  rcases onInstallSnapshot_node n req with ⟨hlt, hn⟩ | ⟨_, hn | ⟨_, _, _, _, hn⟩⟩
  · rw [hn, if_neg (by omega)]
  · rw [hn]
    exact hacc
  · rw [hn]
    exact hacc

/-- Past the term check both handlers of a leader's calls make the node a follower. -/
theorem onAppendEntries_role (n : Node) (req : AppendEntriesRequest) :
    (n.onAppendEntries req).2.role =
      if req.term < n.ps.currentTerm then n.role else .follower := by
  rw [Node.onAppendEntries]
  split
  · rfl
  · dsimp only
    split
    · rfl
    · have hq := (storeEntries_quiet (n.acceptLeader req.term req.leaderId) req.entries).role
      dsimp only
      split <;> exact hq

theorem onInstallSnapshot_role (n : Node) (req : InstallSnapshotRequest) :
    (n.onInstallSnapshot req).2.role =
      if req.term < n.ps.currentTerm then n.role else .follower := by
  rcases onInstallSnapshot_node n req with ⟨hlt, hn⟩ | ⟨hnot, hn | ⟨_, _, _, _, hn⟩⟩
  · rw [hn, if_pos hlt]
  · rw [hn, if_neg hnot]
    rfl
  · rw [hn, if_neg hnot]
    rfl

theorem finishWrite_eq (n : Node) (index : ℕ)
    (appends : List (NodeId × Option AppendEntriesResponse))
    (snapshots : List (NodeId × Option InstallSnapshotResponse)) :
    n.finishWrite index appends snapshots =
      (n.finishReplication index appends snapshots).2.commitWrite index
        (n.finishReplication index appends snapshots).1 := rfl

theorem finishWrite_role (n : Node) (index : ℕ)
    (appends : List (NodeId × Option AppendEntriesResponse))
    (snapshots : List (NodeId × Option InstallSnapshotResponse)) :
    (n.finishWrite index appends snapshots).2.role = n.role ∧
        (n.finishWrite index appends snapshots).2.ps = n.ps ∨
      (n.finishWrite index appends snapshots).2.role = .follower := by
  have hquiet := commitWrite_quiet (n.finishReplication index appends snapshots).2 index
    (n.finishReplication index appends snapshots).1
  rw [finishWrite_eq, hquiet.role, hquiet.ps]
  obtain ⟨_, ⟨ni, mi, hn⟩ | ⟨t, ni, mi, _, _, hn⟩⟩ :=
    finishReplication_cases n index appends snapshots
  · left
    rw [hn]
    exact ⟨rfl, rfl⟩
  · right
    rw [hn]
    rfl

/-- A node that leads after an action led before it, in the same term, or has just won an
election. -/
theorem act_leader {n : Node} {a : Action} (h : (n.act a).role = .leader) :
    n.role = .leader ∧ (n.act a).ps.currentTerm = n.ps.currentTerm ∨
      ∃ results, a = .finishElection results ∧ n.act a = n.begin.becomeLeader ∧
        n.quorum ≤ 1 +
          (results.filter (fun r => r.any RequestVoteResponse.voteGranted)).length := by
  cases a with
  | requestVote req =>
    left
    have hobs : (observeTerm n.begin req.term).role = .leader →
        n.role = .leader ∧
          (observeTerm n.begin req.term).ps.currentTerm = n.ps.currentTerm := by
      intro hlead
      rw [observeTerm] at hlead ⊢
      split at hlead
      · cases hlead
      · rename_i hgt
        rw [if_neg hgt]
        exact ⟨hlead, rfl⟩
    rw [Node.act] at h ⊢
    obtain ⟨_, ⟨_, hn⟩ | ⟨_, hn, _⟩⟩ := onRequestVote_cases n.begin req
    · rw [hn] at h ⊢
      exact hobs h
    · rw [hn] at h ⊢
      exact hobs h
  | appendEntries req =>
    left
    rw [Node.act, onAppendEntries_role] at h
    split at h
    · rename_i hlt
      rw [Node.act, onAppendEntries_ps, if_neg (by omega)]
      exact ⟨h, rfl⟩
    · cases h
  | installSnapshot req =>
    left
    rw [Node.act, onInstallSnapshot_role] at h
    split at h
    · rename_i hlt
      rw [Node.act, onInstallSnapshot_ps, if_neg (by omega)]
      exact ⟨h, rfl⟩
    · cases h
  | startElection => cases h
  | finishElection results =>
    rw [Node.act] at h ⊢
    rcases finishElection_cases n.begin results with
      ⟨r, _, _, hn⟩ | ⟨hn, _⟩ | hn | ⟨hn, _, _, hq⟩
    · rw [hn] at h
      cases h
    · left
      rw [hn] at h ⊢
      exact ⟨h, rfl⟩
    · rw [hn] at h
      cases h
    · right
      exact ⟨results, rfl, hn, hq⟩
  | startWrite data =>
    left
    have hq := startWrite_quiet n.begin data
    rw [Node.act, hq.role] at h
    rw [Node.act, hq.ps]
    exact ⟨h, rfl⟩
  | finishWrite index appends snapshots =>
    left
    rw [Node.act] at h ⊢
    rcases finishWrite_role n.begin index appends snapshots with ⟨hrole, hps⟩ | hrole
    · rw [hrole] at h
      rw [hps]
      exact ⟨h, rfl⟩
    · rw [hrole] at h
      cases h
  | sendHeartbeats => exact Or.inl ⟨h, rfl⟩
  | clientRead fromIndex => exact Or.inl ⟨h, rfl⟩
  | finishHeartbeats results =>
    left
    rw [Node.act] at h ⊢
    rcases finishHeartbeats_cases n.begin results with hn | ⟨r, _, _, hn⟩
    · rw [hn] at h ⊢
      exact ⟨h, rfl⟩
    · rw [hn] at h
      cases h

theorem onAppendEntries_identity (n : Node) (req : AppendEntriesRequest) :
    (n.onAppendEntries req).2.id = n.id ∧ (n.onAppendEntries req).2.peers = n.peers := by
  have hacc := acceptLeader_identity n req.term req.leaderId
  rw [Node.onAppendEntries]
  split
  · exact ⟨rfl, rfl⟩
  · dsimp only
    split
    · exact hacc
    · have hq := storeEntries_quiet (n.acceptLeader req.term req.leaderId) req.entries
      have hstore := And.intro (hq.id.trans hacc.1) (hq.peers.trans hacc.2)
      dsimp only
      split <;> exact hstore

theorem onInstallSnapshot_identity (n : Node) (req : InstallSnapshotRequest) :
    (n.onInstallSnapshot req).2.id = n.id ∧ (n.onInstallSnapshot req).2.peers = n.peers := by
  have hacc := acceptLeader_identity n req.term req.leaderId
  rcases onInstallSnapshot_node n req with ⟨_, hn⟩ | ⟨_, hn | ⟨_, _, _, _, hn⟩⟩
  · rw [hn]
    exact ⟨rfl, rfl⟩
  · rw [hn]
    exact hacc
  · rw [hn]
    exact hacc

/-- No action changes who the node is. -/
theorem act_identity (n : Node) (a : Action) :
    (n.act a).id = n.id ∧ (n.act a).peers = n.peers := by
  cases a with
  | requestVote req =>
    have hobs : (observeTerm n.begin req.term).id = n.id ∧
        (observeTerm n.begin req.term).peers = n.peers := by
      rw [observeTerm]
      split <;> exact ⟨rfl, rfl⟩
    rw [Node.act]
    obtain ⟨_, ⟨_, hn⟩ | ⟨_, hn, _⟩⟩ := onRequestVote_cases n.begin req
    · rw [hn]
      exact hobs
    · rw [hn]
      exact hobs
  | appendEntries req => exact onAppendEntries_identity n.begin req
  | installSnapshot req => exact onInstallSnapshot_identity n.begin req
  | startElection => exact ⟨rfl, rfl⟩
  | finishElection results =>
    rw [Node.act]
    rcases finishElection_cases n.begin results with
      ⟨r, _, _, hn⟩ | ⟨hn, _⟩ | hn | ⟨hn, _⟩ <;> rw [hn] <;> exact ⟨rfl, rfl⟩
  | startWrite data => exact ⟨(startWrite_quiet n.begin data).id, (startWrite_quiet _ _).peers⟩
  | finishWrite index appends snapshots =>
    have hquiet := commitWrite_quiet (n.begin.finishReplication index appends snapshots).2 index
      (n.begin.finishReplication index appends snapshots).1
    rw [Node.act, finishWrite_eq, hquiet.id, hquiet.peers]
    obtain ⟨_, ⟨ni, mi, hn⟩ | ⟨t, ni, mi, _, _, hn⟩⟩ :=
      finishReplication_cases n.begin index appends snapshots <;> rw [hn] <;> exact ⟨rfl, rfl⟩
  | sendHeartbeats => exact ⟨rfl, rfl⟩
  | clientRead fromIndex => exact ⟨rfl, rfl⟩
  | finishHeartbeats results =>
    rw [Node.act]
    rcases finishHeartbeats_cases n.begin results with hn | ⟨r, _, _, hn⟩ <;> rw [hn] <;>
      exact ⟨rfl, rfl⟩

end

end RaftNodeHandlers
