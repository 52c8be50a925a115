import DistributedWal.RaftNodeHandlers

/-! # One vote in each term

A single node under arbitrary requests, replies, timeouts and crashes. Its vote survives
a restart as long as the state file can tell the candidate's id from "no vote".
-/
namespace RaftNodeVotes

open LittleEndianCodec WalSegment WalEngine WalContents ReplicatedLog
open WalEntry (Crc32 ieee WalError)
open ReplicatedLogContents RaftPersistentState RaftSnapshot RaftNode RaftNodeFrame
open RaftNodeHandlers

/-- The request passes the term, vote and log checks. -/
def VoteOpen (n : Node) (req : RequestVoteRequest) : Prop :=
  (n.ps.currentTerm < req.term ∨
    n.ps.currentTerm = req.term ∧ n.alreadyVotedForOther req.candidateId = false) ∧
    n.logOk req = true

/-- The id that gets a vote is not empty and shorter than `2 ^ 32` bytes. -/
def StorableVote (n : Node) : Action → Prop
  | .requestVote req => VoteOpen n req → Storable req.candidateId
  | .startElection => Storable n.id
  | _ => True

/-- What term and vote have to say about the votes given. -/
def Remembers (votes : List (ℕ × NodeId)) (low term : ℕ) (votedFor : Option NodeId) : Prop :=
  low ≤ term ∧ term < 2 ^ 64 ∧
    ∀ v ∈ votes, v.1 ≤ term ∧ (v.1 = term → votedFor = some v.2)

/-- `durable` is about the term alone: the vote on disk need not be the one in memory,
as long as it tells the same about the votes given. -/
structure Invariant (votes : List (ℕ × NodeId)) (n : Node) : Prop where
  durable : (stored n.ps.file).1 = n.ps.currentTerm
  now : Remembers votes 0 n.ps.currentTerm n.ps.votedFor
  file : Remembers votes 0 (stored n.ps.file).1 (stored n.ps.file).2
  unique : ∀ t c c', (t, c) ∈ votes → (t, c') ∈ votes → c = c'

theorem Remembers.advance {votes : List (ℕ × NodeId)} {low term t : ℕ}
    {votedFor : Option NodeId} (h : Remembers votes low term votedFor) (ht : term < t)
    (hbound : t < 2 ^ 64) (v : Option NodeId) : Remembers votes low t v := by
  obtain ⟨hlow, _, hall⟩ := h
  refine ⟨by omega, hbound, ?_⟩
  intro w hw
  have := (hall w hw).1
  exact ⟨by omega, fun heq => by omega⟩

theorem Remembers.vote {votes : List (ℕ × NodeId)} {low term : ℕ} {votedFor : Option NodeId}
    (h : Remembers votes low term votedFor) {c : NodeId}
    (hfree : ∀ v, votedFor = some v → v = c) : Remembers votes low term (some c) := by
  obtain ⟨hlow, hbound, hall⟩ := h
  refine ⟨hlow, hbound, ?_⟩
  intro v hv
  refine ⟨(hall v hv).1, fun heq => ?_⟩
  rw [hfree v.2 ((hall v hv).2 heq)]

theorem Remembers.given {votes : List (ℕ × NodeId)} {low term : ℕ} {c : NodeId}
    (h : Remembers votes low term (some c)) :
    Remembers (votes ++ [(term, c)]) 0 term (some c) := by
  obtain ⟨_, hbound, hall⟩ := h
  refine ⟨Nat.zero_le _, hbound, ?_⟩
  intro v hv
  rcases List.mem_append.mp hv with hv | hv
  · exact hall v hv
  · obtain rfl := List.mem_singleton.mp hv
    exact ⟨le_rfl, fun _ => rfl⟩

variable {votes : List (ℕ × NodeId)} {n m : Node} {low : ℕ}

/-- The invariant as a property that every handler carries along. -/
theorem Invariant.keeps (h : Invariant votes n) :
    Keeps (Remembers votes n.ps.currentTerm) n.begin :=
  Keeps.begin ⟨le_rfl, h.now.2⟩ ⟨Nat.le_of_eq h.durable.symm, h.file.2⟩

theorem stored_advanced {ps : PersistentState} {t : ℕ} (ht : t < 2 ^ 64) :
    stored (ps.advanceTerm t).file = (t, none) := by
  rw [show (ps.advanceTerm t).file = some (encode t none) from rfl, stored_some]
  exact decode_encode ht (by simp)

theorem recordVote_currentTerm (m : Node) (c : NodeId) :
    (m.recordVote c).ps.currentTerm = m.ps.currentTerm := rfl

theorem recordVote_file (m : Node) (c : NodeId) :
    (m.recordVote c).ps.file = some (encode m.ps.currentTerm (some c)) := rfl

theorem stored_recordVote (m : Node) (c : NodeId) :
    stored (m.recordVote c).ps.file = decode (encode m.ps.currentTerm (some c)) := by
  rw [recordVote_file, stored_some]

/-- What the invariant gives after an action: the term that counts is on disk, and the
vote just given is the one recorded. -/
structure After (votes : List (ℕ × NodeId)) (low : ℕ) (given : Option (ℕ × NodeId))
    (n : Node) : Prop where
  keeps : Keeps (Remembers votes low) n
  durable : (stored n.ps.file).1 = n.ps.currentTerm
  given : ∀ t c, given = some (t, c) →
    n.ps.currentTerm = t ∧ n.ps.votedFor = some c ∧ (stored n.ps.file).2 = some c

/-- A node that moved to a higher term. -/
theorem After.stepped (h : Keeps (Remembers votes low) m) {t : ℕ} (hlt : m.ps.currentTerm < t)
    (ht : t < 2 ^ 64) : After votes low none (m.stepDown t) := by
  refine ⟨h.stepDown ht (h.now.advance hlt ht none), ?_, by simp⟩
  exact congrArg Prod.fst (stored_advanced ht)

theorem After.quiet (h : After votes low none n) (hq : Quiet n m) : After votes low none m := by
  refine ⟨h.keeps.quiet hq, ?_, by simp⟩
  rw [hq.ps]
  exact h.durable

/-- What the handlers of a leader's calls leave. -/
theorem After.accepted (h : Invariant votes n) (hk : Keeps (Remembers votes low) m) {t : ℕ}
    (ht : t > n.ps.currentTerm → t < 2 ^ 64)
    (hps : m.ps = if t > n.ps.currentTerm then n.ps.advanceTerm t else n.ps) :
    After votes low none m := by
  refine ⟨hk, ?_, by simp⟩
  rw [hps]
  split
  · rename_i hgt
    exact congrArg Prod.fst (stored_advanced (ht hgt))
  · exact h.durable

/-- A vote recorded in the current term. -/
theorem After.voted (h : Keeps (Remembers votes low) m) {c : NodeId}
    (hfree : ∀ v, m.ps.votedFor = some v → v = c) (hid : Storable c) :
    After votes low (some (m.ps.currentTerm, c)) (m.recordVote c) := by
  have hdec : decode (encode m.ps.currentTerm (some c)) = (m.ps.currentTerm, some c) :=
    decode_encode h.now.2.1 (fun id hid' => by cases hid'; exact hid)
  have hvote := h.now.vote hfree
  have hkeeps : Keeps (Remembers votes low) (m.recordVote c) := by
    refine h.recordVote hvote ?_
    rw [hdec]
    exact hvote
  have hstored : stored (m.recordVote c).ps.file = (m.ps.currentTerm, some c) := by
    rw [stored_recordVote, hdec]
  refine ⟨hkeeps, congrArg Prod.fst hstored, ?_⟩
  intro t c' hgiven
  cases hgiven
  exact ⟨rfl, rfl, congrArg Prod.snd hstored⟩

theorem After.invariant {given : Option (ℕ × NodeId)} (hafter : After votes low given m)
    (h : Invariant votes n) : Invariant (votes ++ given.toList) m := by
  obtain ⟨hlow, hbound, hall⟩ := hafter.keeps.now
  cases given with
  | none =>
    rw [Option.toList_none, List.append_nil]
    exact ⟨hafter.durable, ⟨Nat.zero_le _, hafter.keeps.now.2⟩,
      ⟨Nat.zero_le _, hafter.keeps.file.2⟩, h.unique⟩
  | some v =>
    obtain ⟨t, c⟩ := v
    obtain ⟨ht, hfor, hfile⟩ := hafter.given t c rfl
    subst ht
    rw [Option.toList_some]
    refine ⟨hafter.durable, ?_, ?_, ?_⟩
    · have hnow := hafter.keeps.now
      rw [hfor] at hnow ⊢
      exact hnow.given
    · have hnow := hafter.keeps.file
      rw [hfile, hafter.durable] at hnow ⊢
      exact hnow.given
    · -- a vote given now is the one the state remembers for this term
      have hold : ∀ c', (m.ps.currentTerm, c') ∈ votes → c' = c := by
        intro c' hc'
        have := (hall _ hc').2 rfl
        rw [hfor] at this
        exact (Option.some.inj this).symm
      intro t c₁ c₂ h₁ h₂
      simp only [List.mem_append, List.mem_singleton, Prod.mk.injEq] at h₁ h₂
      rcases h₁ with h₁ | ⟨rfl, rfl⟩ <;> rcases h₂ with h₂ | ⟨ht, rfl⟩
      · exact h.unique t c₁ c₂ h₁ h₂
      · exact hold c₁ (ht ▸ h₁)
      · exact (hold c₂ h₂).symm
      · rfl

theorem voteOpen_of_granted {req : RequestVoteRequest}
    (h : (n.begin.onRequestVote req).1.voteGranted = true) : VoteOpen n req := by
  obtain ⟨_, ⟨hno, _⟩ | ⟨_, _, hterm, hfree, hlog⟩⟩ := onRequestVote_cases n.begin req
  · rw [hno] at h
    cases h
  · rw [observeTerm_currentTerm] at hterm
    have hcur : n.begin.ps.currentTerm = n.ps.currentTerm := rfl
    have hle : n.ps.currentTerm ≤ req.term := by omega
    constructor
    · rcases Nat.lt_or_eq_of_le hle with hlt | heq
      · exact Or.inl hlt
      · refine Or.inr ⟨heq, ?_⟩
        have hsame : observeTerm n.begin req.term = n.begin := by
          rw [observeTerm, if_neg (by omega)]
        rw [hsame] at hfree
        rw [Node.alreadyVotedForOther]
        cases hv : n.ps.votedFor with
        | none => rfl
        | some v => simp [hfree v hv]
    · have hsame : (observeTerm n.begin req.term).logOk req = n.logOk req := by
        rw [observeTerm]
        split <;> rfl
      exact hsame ▸ hlog

theorem open_file (file : Option Bytes) : (PersistentState.open file).file = file := by
  cases file <;> rfl

section

variable [Crc32]

/-- The term counter does not overflow. -/
def Bounded (n : Node) (a : Action) : Prop := (n.act a).ps.currentTerm < 2 ^ 64

/-- The vote that the node gives with the action. -/
def voteGiven (n : Node) : Action → Option (ℕ × NodeId)
  | .requestVote req =>
    if (n.begin.onRequestVote req).1.voteGranted then some (req.term, req.candidateId) else none
  | .startElection => some (n.ps.currentTerm + 1, n.id)
  | _ => none

/-- The runs of a node from an empty directory whose actions are all bounded and `ok`,
with the votes given. A crash leaves the files as they were after some effect of the
action it interrupts, and nothing of the action leaves the node. -/
inductive NodeRun (ok : Node → Action → Prop) (id : NodeId) (peers : List NodeId) :
    List (ℕ × NodeId) → Node → Prop where
  | start {n : Node} (h : Node.start id peers none Dir.empty none = .ok n) :
      NodeRun ok id peers [] n
  | act {votes : List (ℕ × NodeId)} {n : Node} (a : Action) (run : NodeRun ok id peers votes n)
      (hb : Bounded n a) (hok : ok n a) :
      NodeRun ok id peers (votes ++ (voteGiven n a).toList) (n.act a)
  | crash {votes : List (ℕ × NodeId)} {n n' : Node} (a : Action) (img : Image)
      (run : NodeRun ok id peers votes n) (hb : Bounded n a) (hok : ok n a)
      (himg : img ∈ (n.act a).trail)
      (hstart : Node.start id peers img.stateFile img.wal img.snapshotFile = .ok n') :
      NodeRun ok id peers votes n'

theorem after_requestVote (h : Invariant votes n) {req : RequestVoteRequest}
    (hb : Bounded n (.requestVote req)) (hok : VoteOpen n req → Storable req.candidateId) :
    After votes n.ps.currentTerm (voteGiven n (.requestVote req)) (n.act (.requestVote req)) := by
  have hk := h.keeps
  have hterm := observeTerm_currentTerm n.begin req.term
  have hcur : n.begin.ps.currentTerm = n.ps.currentTerm := rfl
  have hres := onRequestVote_cases n.begin req
  have hlt : req.term > n.ps.currentTerm → req.term < 2 ^ 64 := by
    intro hgt
    have hsame : (n.act (.requestVote req)).ps.currentTerm =
        (observeTerm n.begin req.term).ps.currentTerm := by
      rcases hres with ⟨_, ⟨_, hn⟩ | ⟨_, hn, _⟩⟩ <;> exact congrArg (·.ps.currentTerm) hn
    rw [Bounded, hsame] at hb
    omega
  have hobs : Keeps (Remembers votes n.ps.currentTerm) (observeTerm n.begin req.term) :=
    observeTerm_keeps hk hlt (fun hgt => hk.now.advance hgt (hlt hgt) none)
  obtain ⟨_, ⟨hno, hn⟩ | ⟨hyes, hn, heq, hfree, _⟩⟩ := hres
  · simp only [Node.act, voteGiven, hn, hno]
    refine ⟨hobs, ?_, by simp⟩
    rw [observeTerm]
    split
    · rename_i hgt
      exact congrArg Prod.fst (stored_advanced (hlt hgt))
    · exact h.durable
  · have hvoted := After.voted hobs hfree (hok (voteOpen_of_granted hyes))
    simp only [Node.act, voteGiven, hn, hyes, if_true]
    rwa [heq] at hvoted

/-- An own id that cannot be stored is a vote on which nothing may rely. -/
theorem after_startElection (h : Invariant votes n) (hb : Bounded n .startElection)
    {given : Option (ℕ × NodeId)}
    (hgiven : ∀ v, given = some v → v = (n.ps.currentTerm + 1, n.id) ∧ Storable n.id) :
    After votes n.ps.currentTerm given (n.act .startElection) := by
  have hk := h.keeps
  have hb : n.ps.currentTerm + 1 < 2 ^ 64 := hb
  have hadv : ∀ v, Remembers votes n.ps.currentTerm (n.ps.currentTerm + 1) v :=
    hk.now.advance (Nat.lt_succ_self _) hb
  have hkeeps := hk.advanceTerm hb (hadv none)
  set m := n.begin.advanceTerm (n.ps.currentTerm + 1) with hm
  have hcur : m.ps.currentTerm = n.ps.currentTerm + 1 := rfl
  by_cases hid : Storable n.id
  · have hvoted := After.voted hkeeps (fun v hv => by cases hv) hid
    refine ⟨hvoted.keeps.volatile rfl rfl, hvoted.durable, ?_⟩
    intro t c htc
    obtain ⟨heq, _⟩ := hgiven _ htc
    cases heq
    exact hvoted.given _ _ rfl
  · have hterm : (decode (encode m.ps.currentTerm (some n.id))).1 = m.ps.currentTerm :=
      decode_encode_term hb (some n.id)
    have hrec : Keeps (Remembers votes n.ps.currentTerm) (m.recordVote n.id) := by
      refine hkeeps.recordVote (hcur ▸ hadv _) ?_
      rw [hterm]
      exact hadv _
    have hdur : (stored (m.recordVote n.id).ps.file).1 = m.ps.currentTerm := by
      rw [stored_recordVote, hterm]
    refine ⟨hrec.volatile rfl rfl, hdur, ?_⟩
    intro t c htc
    exact absurd (hgiven _ htc).2 hid

theorem after_finishElection (h : Invariant votes n)
    {results : List (Option RequestVoteResponse)} (hb : Bounded n (.finishElection results)) :
    After votes n.ps.currentTerm none (n.act (.finishElection results)) := by
  have hk := h.keeps
  rw [Bounded] at hb
  rw [Node.act] at hb ⊢
  rcases finishElection_cases n.begin results with
    ⟨r, hr, hlt, hn⟩ | ⟨hn, _⟩ | hn | ⟨hn, _⟩
  · rw [hn] at hb ⊢
    exact .stepped hk hlt hb
  · rw [hn]
    exact ⟨hk, h.durable, by simp⟩
  · rw [hn]
    exact ⟨hk.volatile rfl rfl, h.durable, by simp⟩
  · rw [hn]
    exact ⟨hk.volatile rfl rfl, h.durable, by simp⟩

theorem after_finishWrite (h : Invariant votes n) {index : ℕ}
    {appends : List (NodeId × Option AppendEntriesResponse)}
    {snapshots : List (NodeId × Option InstallSnapshotResponse)}
    (hb : Bounded n (.finishWrite index appends snapshots)) :
    After votes n.ps.currentTerm none (n.act (.finishWrite index appends snapshots)) := by
  have hk := h.keeps
  rw [Bounded] at hb
  rw [Node.act, Node.finishWrite] at hb ⊢
  have hquiet := commitWrite_quiet (n.begin.finishReplication index appends snapshots).2 index
    (n.begin.finishReplication index appends snapshots).1
  have hrep : After votes n.ps.currentTerm none
      (n.begin.finishReplication index appends snapshots).2 := by
    obtain ⟨_, ⟨ni, mi, hn⟩ | ⟨t, ni, mi, hrep, hlt, hn⟩⟩ :=
      finishReplication_cases n.begin index appends snapshots
    · rw [hn]
      exact ⟨hk.volatile rfl rfl, h.durable, by simp⟩
    · have hprogress : Keeps (Remembers votes n.ps.currentTerm) (withProgress n.begin ni mi) :=
        hk.volatile rfl rfl
      rw [hquiet.ps, hn] at hb
      rw [hn]
      exact .stepped hprogress hlt hb
  exact hrep.quiet hquiet

theorem after_act (h : Invariant votes n) {a : Action} (hb : Bounded n a)
    (hok : StorableVote n a) : After votes n.ps.currentTerm (voteGiven n a) (n.act a) := by
  have hk := h.keeps
  have hbegin : After votes n.ps.currentTerm none n.begin := ⟨hk, h.durable, by simp⟩
  cases a with
  | requestVote req => exact after_requestVote h hb hok
  | startElection =>
    refine after_startElection h hb ?_
    intro v hv
    cases hv
    exact ⟨rfl, hok⟩
  | finishElection results => exact after_finishElection h hb
  | finishWrite index appends snapshots => exact after_finishWrite h hb
  | appendEntries req =>
    have hps := onAppendEntries_ps n.begin req
    have hlt : req.term > n.ps.currentTerm → req.term < 2 ^ 64 := by
      intro hgt
      have hgt : req.term > n.begin.ps.currentTerm := hgt
      rw [Bounded, Node.act, hps, if_pos hgt] at hb
      exact hb
    exact .accepted h
      (onAppendEntries_keeps hk hlt (fun hgt => hk.now.advance hgt (hlt hgt) none)) hlt hps
  | installSnapshot req =>
    have hps := onInstallSnapshot_ps n.begin req
    have hlt : req.term > n.ps.currentTerm → req.term < 2 ^ 64 := by
      intro hgt
      have hgt : req.term > n.begin.ps.currentTerm := hgt
      rw [Bounded, Node.act, hps, if_pos hgt] at hb
      exact hb
    exact .accepted h
      (onInstallSnapshot_keeps hk hlt (fun hgt => hk.now.advance hgt (hlt hgt) none)) hlt hps
  | startWrite data => exact hbegin.quiet (startWrite_quiet n.begin data)
  | sendHeartbeats => exact hbegin
  | clientRead fromIndex => exact hbegin
  | finishHeartbeats results =>
    rw [Bounded] at hb
    rw [Node.act] at hb ⊢
    rcases finishHeartbeats_cases n.begin results with hn | ⟨r, hr, hlt, hn⟩
    · rw [hn]
      exact hbegin
    · rw [hn] at hb ⊢
      exact .stepped hk hlt hb

/-- A restart reads the term and the vote from the state file. -/
theorem restart_invariant {file snapshotFile : Option Bytes} {wal : Dir} {id : NodeId}
    {peers : List NodeId} (hfile : Remembers votes low (stored file).1 (stored file).2)
    (hunique : ∀ t c c', (t, c) ∈ votes → (t, c') ∈ votes → c = c')
    (hstart : Node.start id peers file wal snapshotFile = .ok n) :
    Invariant votes n ∧ low ≤ n.ps.currentTerm := by
  obtain ⟨_, _, hstarted⟩ := start_cases hstart
  have hopened : n.ps.file = file := by rw [hstarted.ps, open_file]
  have hterm : n.ps.currentTerm = (stored file).1 := by rw [hstarted.ps, stored]
  have hvote : n.ps.votedFor = (stored file).2 := by rw [hstarted.ps, stored]
  obtain ⟨hlow, hrest⟩ := hfile
  refine ⟨⟨?_, ?_, ?_, hunique⟩, hterm ▸ hlow⟩
  · rw [hopened, hterm]
  · rw [hterm, hvote]
    exact ⟨Nat.zero_le _, hrest⟩
  · rw [hopened]
    exact ⟨Nat.zero_le _, hrest⟩

theorem Invariant.crash (h : Invariant votes n) {a : Action} (hb : Bounded n a)
    (hok : StorableVote n a) {img : Image} (himg : img ∈ (n.act a).trail) {id : NodeId}
    {peers : List NodeId}
    (hstart : Node.start id peers img.stateFile img.wal img.snapshotFile = .ok m) :
    Invariant votes m ∧ n.ps.currentTerm ≤ m.ps.currentTerm :=
  restart_invariant ((after_act h hb hok).keeps.images img himg) h.unique hstart

theorem NodeRun.invariant {id : NodeId} {peers : List NodeId}
    (run : NodeRun StorableVote id peers votes n) : Invariant votes n := by
  induction run with
  | start hstart =>
    refine (restart_invariant ⟨Nat.zero_le _, ?_, ?_⟩ ?_ hstart).1
    · decide
    · simp
    · simp
  | act a _ hb hok ih => exact (after_act ih hb hok).invariant ih
  | crash a img _ hb hok himg hstart ih => exact (ih.crash hb hok himg hstart).1

/-- Over every run in which the ids voted for can be stored: at most one candidate gets
the vote in each term, and neither an action nor a crash lowers the term. -/
theorem one_vote_per_term {id : NodeId} {peers : List NodeId}
    (run : NodeRun StorableVote id peers votes n) :
    (∀ t c c', (t, c) ∈ votes → (t, c') ∈ votes → c = c') ∧
    ∀ a, Bounded n a → StorableVote n a →
      n.ps.currentTerm ≤ (n.act a).ps.currentTerm ∧
      ∀ img ∈ (n.act a).trail, ∀ n',
        Node.start id peers img.stateFile img.wal img.snapshotFile = .ok n' →
        n.ps.currentTerm ≤ n'.ps.currentTerm := by
  have h := run.invariant
  refine ⟨h.unique, ?_⟩
  intro a hb hok
  refine ⟨(after_act h hb hok).keeps.now.1, ?_⟩
  intro img himg n' hstart
  exact (h.crash hb hok himg hstart).2

/-- A vote that is not another's goes to a candidate whose log is as empty as ours. -/
theorem voteGiven_free {t : ℕ} {c : NodeId} (hterm : n.ps.currentTerm ≤ t)
    (hfree : n.ps.currentTerm = t → ∀ v, n.ps.votedFor = some v → v = c)
    (hlog : n.log.toLogView = LogView.empty) :
    voteGiven n (.requestVote ⟨t, c, 0, 0⟩) = some (t, c) ∧
      n.act (.requestVote ⟨t, c, 0, 0⟩) = (observeTerm n.begin t).recordVote c ∧
      (observeTerm n.begin t).ps.currentTerm = t := by
  have hcur : (observeTerm n.begin t).ps.currentTerm = t := by
    rw [observeTerm_currentTerm]
    exact Nat.max_eq_right hterm
  have hvoted : ∀ v, (observeTerm n.begin t).ps.votedFor = some v → v = c := by
    rw [observeTerm]
    split
    · exact fun v hv => by cases hv
    · exact hfree (Nat.le_antisymm hterm (Nat.not_lt.mp (by assumption)))
  have hempty : (observeTerm n.begin t).log.toLogView = LogView.empty := by
    rw [observeTerm]
    split <;> exact hlog
  have hok : (observeTerm n.begin t).logOk ⟨t, c, 0, 0⟩ = true := by
    simp only [Node.logOk, hempty]
    decide
  have hfor : (observeTerm n.begin t).alreadyVotedForOther c = false := by
    rw [Node.alreadyVotedForOther]
    split
    · rename_i v hv
      simp [hvoted v hv]
    · rfl
  have hvote : n.begin.onRequestVote ⟨t, c, 0, 0⟩ =
      (⟨((observeTerm n.begin t).recordVote c).ps.currentTerm, true⟩,
        (observeTerm n.begin t).recordVote c) := by
    rw [onRequestVote_eq, decideVote]
    simp [hcur, hfor, hok]
  refine ⟨?_, ?_, hcur⟩
  · rw [voteGiven, hvote, if_pos rfl]
  · rw [Node.act, hvote]

/-- A vote that is another's stays with it. -/
theorem voteGiven_taken {t i u : ℕ} {c v : NodeId} (hterm : n.ps.currentTerm = t)
    (hvoted : n.ps.votedFor = some v) (hne : v ≠ c) :
    voteGiven n (.requestVote ⟨t, c, i, u⟩) = none ∧
      n.act (.requestVote ⟨t, c, i, u⟩) = n.begin := by
  have hobs : observeTerm n.begin t = n.begin := if_neg (by show ¬ t > n.ps.currentTerm; omega)
  have hother : n.begin.alreadyVotedForOther c = true := by
    rw [Node.alreadyVotedForOther, show n.begin.ps.votedFor = some v from hvoted]
    exact decide_eq_true hne
  have hrefuse : n.begin.onRequestVote ⟨t, c, i, u⟩ = (⟨n.begin.ps.currentTerm, false⟩, n.begin) := by
    rw [onRequestVote_eq, hobs, decideVote]
    simp [hother]
  constructor
  · rw [voteGiven, hrefuse]
    rfl
  · rw [Node.act, hrefuse]

theorem start_fresh (id : NodeId) (peers : List NodeId) :
    ∃ n log, Node.start id peers none Dir.empty none = .ok n ∧
      Started id peers none none log n ∧ log.toLogView = LogView.empty ∧
      Healthy log ⟨[], []⟩ ∧ log.wal.config = walConfig ∧ log.wal.nextSequence = 1 := by
  obtain ⟨log, hopen, hview, hhealthy, hcfg, hseq⟩ := open_log_empty walConfig
  obtain ⟨n, hstart, hstarted⟩ := start_ok id peers none none hopen
  exact ⟨n, log, hstart, hstarted, hview, hhealthy, hcfg, hseq⟩

/-- A fresh node votes for `c` in term 1, stops between two actions and opens its files
again. -/
theorem voted_restart {ok : Node → Action → Prop} (id : NodeId) (peers : List NodeId)
    {c : NodeId} (hvote : ∀ n, ok n (.requestVote ⟨1, c, 0, 0⟩))
    (hstop : ∀ n, ok n .sendHeartbeats) :
    ∃ m n, NodeRun ok id peers [(1, c)] m ∧
      Node.start id peers m.ps.file m.log.wal.dir m.snapshotFile = .ok n ∧
      NodeRun ok id peers [(1, c)] n ∧
      n.ps = PersistentState.open (some (encode 1 (some c))) ∧
      n.log.toLogView = LogView.empty := by
  obtain ⟨n, log, hstart, hn, hview, hhealthy, hcfg, _⟩ := start_fresh id peers
  have hnone : n.ps.votedFor = none := by
    rw [hn.ps]
    rfl
  obtain ⟨hgiven, hact, hcur⟩ := voteGiven_free (n := n) (t := 1) (c := c)
    (by rw [hn.ps]; decide) (fun _ v hv => by rw [hnone] at hv; cases hv) (by rw [hn.log, hview])
  generalize hm : (observeTerm n.begin 1).recordVote c = m at hact
  have hterm : m.ps.currentTerm = 1 := by
    rw [← hm]
    exact hcur
  have hfile : m.ps.file = some (encode 1 (some c)) := by
    rw [← hm, recordVote_file, hcur]
  have hlog : m.log = log := by
    rw [← hm, ← hn.log, Node.recordVote, Node.mark, observeTerm]
    dsimp only
    split <;> rfl
  have run₀ : NodeRun ok id peers [] n := .start hstart
  have hb : Bounded n (.requestVote ⟨1, c, 0, 0⟩) := by
    rw [Bounded, hact, hterm]
    decide
  have run := run₀.act (.requestVote ⟨1, c, 0, 0⟩) hb (hvote n)
  rw [hgiven, hact] at run
  obtain ⟨log', hopen, hview', _⟩ := open_log_spec hhealthy.stores
  rw [hcfg, ← hlog] at hopen
  obtain ⟨n', hstart', hn'⟩ := start_ok id peers m.ps.file m.snapshotFile hopen
  have hb' : Bounded m .sendHeartbeats := by
    rw [Bounded, Node.act, Node.begin, hterm]
    decide
  have run' := run.crash .sendHeartbeats m.image hb' (hstop m)
    (by simp [Node.act, Node.begin]) hstart'
  refine ⟨m, n', run, hstart', run', ?_, ?_⟩
  · rw [hn'.ps, hfile]
  · rw [hn'.log, hview']
    rfl

end

/-- "n1" has voted for "n2", starts again, refuses "n3" and repeats its vote. -/
theorem one_vote_per_term_restarted :
    ∃ m n, @NodeRun ieee StorableVote "n1" ["n2", "n3"] [(1, "n2")] m ∧
      @Node.start ieee "n1" ["n2", "n3"] m.ps.file m.log.wal.dir m.snapshotFile = .ok n ∧
      voteGiven n (.requestVote ⟨1, "n3", 0, 0⟩) = none ∧
      @NodeRun ieee StorableVote "n1" ["n2", "n3"] [(1, "n2"), (1, "n2")]
        (@Node.act ieee (@Node.act ieee n (.requestVote ⟨1, "n3", 0, 0⟩))
          (.requestVote ⟨1, "n2", 0, 0⟩)) ∧
      ∀ t c c', (t, c) ∈ [(1, "n2"), (1, "n2")] → (t, c') ∈ [(1, "n2"), (1, "n2")] → c = c' := by
  let _ : Crc32 := ieee
  have hvote : ∀ n, StorableVote n (.requestVote ⟨1, "n2", 0, 0⟩) := fun _ _ => by decide
  obtain ⟨m, n, run, hstart, run', hps, hlog⟩ :=
    voted_restart "n1" ["n2", "n3"] hvote (fun _ => trivial)
  have hfile : n.ps.currentTerm = 1 ∧ n.ps.votedFor = some "n2" := by
    have hdec : decode (encode 1 (some "n2")) = (1, some "n2") :=
      (decode_encode_iff (by decide) "n2").mpr (by decide)
    rw [hps]
    exact ⟨congrArg Prod.fst hdec, congrArg Prod.snd hdec⟩
  obtain ⟨hnone, hsame⟩ := voteGiven_taken (i := 0) (u := 0) hfile.1 hfile.2
    (by decide : "n2" ≠ "n3")
  have hb : Bounded n (.requestVote ⟨1, "n3", 0, 0⟩) := by
    rw [Bounded, hsame]
    show n.ps.currentTerm < 2 ^ 64
    rw [hfile.1]
    decide
  have run₁ := run'.act (.requestVote ⟨1, "n3", 0, 0⟩) hb (fun _ => by decide)
  rw [hnone, Option.toList_none, List.append_nil] at run₁
  set n₁ := n.act (.requestVote ⟨1, "n3", 0, 0⟩)
  have hps₁ : n₁.ps = n.ps := by
    rw [hsame]
    rfl
  have hlog₁ : n₁.log = n.log := by
    rw [hsame]
    rfl
  obtain ⟨hgiven, hact, hcur⟩ := voteGiven_free (n := n₁) (t := 1) (c := "n2")
    (by rw [hps₁, hfile.1]) (fun _ v hv => by
      rw [hps₁, hfile.2] at hv
      exact (Option.some.inj hv).symm) (by rw [hlog₁, hlog])
  have hb₁ : Bounded n₁ (.requestVote ⟨1, "n2", 0, 0⟩) := by
    rw [Bounded, hact, recordVote_currentTerm, hcur]
    decide
  have run₂ := run₁.act (.requestVote ⟨1, "n2", 0, 0⟩) hb₁ (hvote n₁)
  rw [hgiven] at run₂
  exact ⟨m, n, run, hstart, hnone, run₂, (one_vote_per_term run₂).1⟩

/-- A vote for the empty id reads as no vote after a restart. -/
theorem votes_twice :
    ∃ n votes, @NodeRun ieee (fun _ _ => True) "n1" ["n2"] votes n ∧
      (1, "") ∈ votes ∧ (1, "n2") ∈ votes := by
  let _ : Crc32 := ieee
  let ok : Node → Action → Prop := fun _ _ => True
  have hvote : ∀ n, ok n (.requestVote ⟨1, "", 0, 0⟩) := fun _ => trivial
  obtain ⟨_, n, _, _, run, hfile, hlog⟩ :=
    voted_restart "n1" ["n2"] hvote (fun _ => trivial)
  have hps : n.ps.currentTerm = 1 ∧ n.ps.votedFor = none := by
    rw [hfile]
    have hdec : decode (encode 1 none) = (1, none) := decode_encode (by decide) (by simp)
    exact ⟨congrArg Prod.fst hdec, congrArg Prod.snd hdec⟩
  obtain ⟨hgiven, hact, hcur⟩ := voteGiven_free (n := n) (t := 1) (c := "n2")
    (by rw [hps.1]) (fun _ v hv => by rw [hps.2] at hv; cases hv) hlog
  have hb : Bounded n (.requestVote ⟨1, "n2", 0, 0⟩) := by
    rw [Bounded, hact, recordVote_currentTerm, hcur]
    decide
  have run' := run.act (.requestVote ⟨1, "n2", 0, 0⟩) hb trivial
  rw [hgiven] at run'
  exact ⟨_, _, run', by simp, by simp⟩

end RaftNodeVotes
