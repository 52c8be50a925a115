import DistributedWal.RaftNodeVotes

/-! # Votes on a disk that fails

The handlers that vote, with the results of the writes of `raft_state.bin` as arguments. A
write that fails leaves the old file, since the rename is the last step; the handlers ignore
the error and go on with what is in memory.
-/
namespace RaftNodeDurableVotes

open LittleEndianCodec RaftPersistentState RaftNode RaftNodeFrame RaftNodeHandlers
open ReplicatedLog WalSegment WalEngine RaftNodeVotes
open WalEntry (Crc32 ieee)

def PersistentState.persistUnder (ps : PersistentState) (fails : Bool) : PersistentState :=
  if fails then ps else ps.persist

def PersistentState.advanceTermUnder (ps : PersistentState) (newTerm : ℕ) (fails : Bool) :
    PersistentState :=
  PersistentState.persistUnder { ps with currentTerm := newTerm, votedFor := none } fails

def PersistentState.recordVoteUnder (ps : PersistentState) (candidate : NodeId)
    (fails : Bool) : PersistentState :=
  PersistentState.persistUnder { ps with votedFor := some candidate } fails

def Node.advanceTermUnder (n : Node) (newTerm : ℕ) (fails : Bool) : Node :=
  { n with ps := PersistentState.advanceTermUnder n.ps newTerm fails }.mark

def Node.recordVoteUnder (n : Node) (candidate : NodeId) (fails : Bool) : Node :=
  { n with ps := PersistentState.recordVoteUnder n.ps candidate fails }.mark

def Node.onRequestVoteUnder (n : Node) (req : RequestVoteRequest) (termFails voteFails : Bool) :
    RequestVoteResponse × Node :=
  let n :=
    if req.term > n.ps.currentTerm then
      { Node.advanceTermUnder n req.term termFails with role := .follower }
    else n
  if req.term < n.ps.currentTerm then (⟨n.ps.currentTerm, false⟩, n)
  else if n.alreadyVotedForOther req.candidateId then (⟨n.ps.currentTerm, false⟩, n)
  else if ¬ n.logOk req then (⟨n.ps.currentTerm, false⟩, n)
  else
    let n := Node.recordVoteUnder n req.candidateId voteFails
    (⟨n.ps.currentTerm, true⟩, n)

/-- Its own vote is counted whatever becomes of the writes: `finish_election` starts at 1. -/
def Node.startElectionUnder (n : Node) (termFails voteFails : Bool) :
    RequestVoteRequest × Node :=
  let newTerm := n.ps.currentTerm + 1
  let n := Node.advanceTermUnder n newTerm termFails
  let n := Node.recordVoteUnder n n.id voteFails
  let n := { n with role := .candidate }
  (⟨newTerm, n.id, n.log.lastIndex, n.log.lastTerm⟩, n)

/-- Without failures the handlers are those of the node. -/
theorem onRequestVoteUnder_false (n : Node) (req : RequestVoteRequest) :
    Node.onRequestVoteUnder n req false false = n.onRequestVote req := rfl

theorem startElectionUnder_false (n : Node) :
    Node.startElectionUnder n false false = n.startElection := rfl

/-- The file, read after a restart, names this vote. -/
def OnDisk (file : Option Bytes) (term : ℕ) (candidate : NodeId) : Prop :=
  stored file = (term, some candidate)

/-- A vote that is written is on the disk when its id is storable. -/
theorem onDisk_recordVoteUnder {n : Node} {term : ℕ} (ht : term < 2 ^ 64)
    (hterm : n.ps.currentTerm = term) (candidate : NodeId) (voteFails : Bool) :
    OnDisk (Node.recordVoteUnder n candidate voteFails).ps.file term candidate ↔
      (voteFails = false ∧ Storable candidate) ∨
        (voteFails = true ∧ OnDisk n.ps.file term candidate) := by
  cases voteFails with
  | true => simp [Node.recordVoteUnder, PersistentState.recordVoteUnder,
      PersistentState.persistUnder, Node.mark]
  | false =>
    rw [← decode_encode_iff ht candidate, ← hterm]
    simp [OnDisk, stored_some, Node.recordVoteUnder, PersistentState.recordVoteUnder,
      PersistentState.persistUnder, PersistentState.persist, Node.mark]

/-- A term that was written says that there is no vote. -/
theorem onDisk_advanceTermUnder {n : Node} {term : ℕ} (ht : term < 2 ^ 64)
    (candidate : NodeId) (termFails : Bool) :
    OnDisk (Node.advanceTermUnder n term termFails).ps.file term candidate ↔
      termFails = true ∧ OnDisk n.ps.file term candidate := by
  cases termFails with
  | true => simp [Node.advanceTermUnder, PersistentState.advanceTermUnder,
      PersistentState.persistUnder, Node.mark]
  | false =>
    have hnone : stored (some (encode term none)) = (term, none) :=
      decode_encode ht (by simp)
    simp [Node.advanceTermUnder, PersistentState.advanceTermUnder, Node.mark,
      PersistentState.persistUnder, PersistentState.persist, OnDisk, hnone]

/-- The vote is written and storable, or it is not written and the file names it already
and stays as it is. -/
def VoteKept (file : Option Bytes) (term : ℕ) (candidate : NodeId) (higher : Prop)
    (termFails voteFails : Bool) : Prop :=
  (voteFails = false ∧ Storable candidate) ∨
    (voteFails = true ∧ OnDisk file term candidate ∧ (higher → termFails = true))

/-- The start of `on_request_vote`: a higher term is taken over. -/
def observeTermUnder (n : Node) (term : ℕ) (termFails : Bool) : Node :=
  if term > n.ps.currentTerm then
    { Node.advanceTermUnder n term termFails with role := .follower }
  else n

/-- A vote that is granted is the one recorded, in the term of the request. -/
theorem onRequestVoteUnder_granted {n : Node} {req : RequestVoteRequest}
    {termFails voteFails : Bool}
    (h : (Node.onRequestVoteUnder n req termFails voteFails).1.voteGranted = true) :
    (Node.onRequestVoteUnder n req termFails voteFails).2 =
        Node.recordVoteUnder (observeTermUnder n req.term termFails) req.candidateId voteFails ∧
      (observeTermUnder n req.term termFails).ps.currentTerm = req.term := by
  have hterm : req.term ≤ (observeTermUnder n req.term termFails).ps.currentTerm := by
    rw [observeTermUnder]
    by_cases hhigh : req.term > n.ps.currentTerm
    · rw [if_pos hhigh]
      cases termFails <;> exact Nat.le_refl _
    · rw [if_neg hhigh]
      exact Nat.not_lt.mp hhigh
  rw [Node.onRequestVoteUnder] at h ⊢
  rw [← observeTermUnder] at h ⊢
  generalize observeTermUnder n req.term termFails = m at h hterm ⊢
  dsimp only at h ⊢
  by_cases hlt : req.term < m.ps.currentTerm
  · rw [if_pos hlt] at h
    cases h
  · rw [if_neg hlt] at h ⊢
    refine ⟨?_, Nat.le_antisymm (Nat.not_lt.mp hlt) hterm⟩
    by_cases hother : m.alreadyVotedForOther req.candidateId = true
    · rw [if_pos hother] at h
      cases h
    · rw [if_neg hother] at h ⊢
      by_cases hok : ¬ m.logOk req = true
      · rw [if_pos hok] at h
        cases h
      · rw [if_neg hok]

/-- Before the vote is written, the file names it only if nothing has overwritten it. -/
theorem onDisk_observeTermUnder {n : Node} {term : ℕ} (ht : term < 2 ^ 64)
    (candidate : NodeId) (termFails : Bool) :
    OnDisk (observeTermUnder n term termFails).ps.file term candidate ↔
      OnDisk n.ps.file term candidate ∧ (term > n.ps.currentTerm → termFails = true) := by
  rw [observeTermUnder]
  by_cases hhigh : term > n.ps.currentTerm
  · rw [if_pos hhigh, onDisk_advanceTermUnder ht]
    simp only [hhigh, true_implies, and_comm]
  · rw [if_neg hhigh]
    simp only [hhigh, false_implies, and_true]

/-- A granted vote, and the vote of an election for itself, is durable exactly when it is
written with a storable id, or the file has it already. -/
theorem granted_vote_durable (n : Node) :
    (∀ (req : RequestVoteRequest) (termFails voteFails : Bool), req.term < 2 ^ 64 →
      (Node.onRequestVoteUnder n req termFails voteFails).1.voteGranted = true →
        (OnDisk (Node.onRequestVoteUnder n req termFails voteFails).2.ps.file req.term
            req.candidateId ↔
          VoteKept n.ps.file req.term req.candidateId (req.term > n.ps.currentTerm)
            termFails voteFails)) ∧
    (∀ termFails voteFails : Bool, n.ps.currentTerm + 1 < 2 ^ 64 →
      (OnDisk (Node.startElectionUnder n termFails voteFails).2.ps.file
          (n.ps.currentTerm + 1) n.id ↔
        VoteKept n.ps.file (n.ps.currentTerm + 1) n.id True termFails voteFails)) := by
  constructor
  · intro req termFails voteFails ht hgranted
    obtain ⟨hnode, hterm⟩ := onRequestVoteUnder_granted hgranted
    rw [hnode, onDisk_recordVoteUnder ht hterm, onDisk_observeTermUnder ht, VoteKept]
  · intro termFails voteFails ht
    have hterm : (Node.advanceTermUnder n (n.ps.currentTerm + 1) termFails).ps.currentTerm =
        n.ps.currentTerm + 1 := by
      cases termFails <;> rfl
    have hfile := onDisk_recordVoteUnder ht hterm n.id voteFails
    rw [onDisk_advanceTermUnder ht] at hfile
    rw [VoteKept]
    simp only [true_implies, and_comm (a := OnDisk n.ps.file _ _)]
    exact hfile

/-- A node that has just started for the first time grants the first vote it is asked for. -/
theorem fresh_grants (voteFails : Bool) :
    ∃ n, @Node.start ieee "n1" ["n2"] none Dir.empty none = .ok n ∧
      (Node.onRequestVoteUnder n ⟨1, "n2", 0, 0⟩ false voteFails).1.voteGranted = true ∧
      n.ps.currentTerm = 0 := by
  let _ : Crc32 := ieee
  obtain ⟨n, log, hstart, hn, hview, _⟩ := start_fresh "n1" ["n2"]
  have hcur : n.ps.currentTerm = 0 := by rw [hn.ps]; rfl
  have hlogs : n.log.lastTerm = 0 ∧ n.log.lastIndex = 0 := by
    rw [hn.log, hview]
    exact ⟨rfl, rfl⟩
  refine ⟨n, hstart, ?_, hcur⟩
  have hhigh : 1 > n.ps.currentTerm := by rw [hcur]; decide
  obtain ⟨hterm, hfree, hlog⟩ : (observeTermUnder n 1 false).ps.currentTerm = 1 ∧
      (observeTermUnder n 1 false).ps.votedFor = none ∧
      (observeTermUnder n 1 false).log = n.log := by
    rw [observeTermUnder, if_pos hhigh]
    exact ⟨rfl, rfl, rfl⟩
  rw [Node.onRequestVoteUnder, ← observeTermUnder]
  generalize observeTermUnder n 1 false = m at hterm hfree hlog ⊢
  simp [hterm, Node.alreadyVotedForOther, hfree, Node.logOk, hlog, hlogs.1, hlogs.2]

/-- Every write succeeds: the vote for "n2" is on the disk. -/
theorem granted_vote_durable_first :
    ∃ n, @Node.start ieee "n1" ["n2"] none Dir.empty none = .ok n ∧
      (Node.onRequestVoteUnder n ⟨1, "n2", 0, 0⟩ false false).1.voteGranted = true ∧
      OnDisk (Node.onRequestVoteUnder n ⟨1, "n2", 0, 0⟩ false false).2.ps.file 1 "n2" := by
  obtain ⟨n, hstart, hgranted, _⟩ := fresh_grants false
  exact ⟨n, hstart, hgranted, ((granted_vote_durable n).1 ⟨1, "n2", 0, 0⟩ false false (by decide)
    hgranted).mpr (Or.inl ⟨rfl, by decide⟩)⟩

/-- The write of the vote fails: the vote is granted, and after a restart there is none. -/
theorem granted_vote_lost :
    ∃ n, @Node.start ieee "n1" ["n2"] none Dir.empty none = .ok n ∧
      (Node.onRequestVoteUnder n ⟨1, "n2", 0, 0⟩ false true).1.voteGranted = true ∧
      stored (Node.onRequestVoteUnder n ⟨1, "n2", 0, 0⟩ false true).2.ps.file = (1, none) ∧
      ¬ OnDisk (Node.onRequestVoteUnder n ⟨1, "n2", 0, 0⟩ false true).2.ps.file 1 "n2" := by
  obtain ⟨n, hstart, hgranted, hcur⟩ := fresh_grants true
  obtain ⟨hnode, _⟩ := onRequestVoteUnder_granted hgranted
  have hfile : (Node.onRequestVoteUnder n ⟨1, "n2", 0, 0⟩ false true).2.ps.file =
      some (encode 1 none) := by
    rw [hnode, observeTermUnder, if_pos (by rw [hcur]; decide)]
    rfl
  have hstored : stored (some (encode 1 none)) = (1, none) := decode_encode (by decide) (by simp)
  refine ⟨n, hstart, hgranted, by rw [hfile, hstored], ?_⟩
  rw [OnDisk, hfile, hstored]
  decide

end RaftNodeDurableVotes
