import DistributedWal.RaftNodeWrites

/-! # The bounds of the commit index

The commit index lies between the snapshot index and the last index as long as no restart
finds a snapshot in the log, since a restart sets it to 0, and as long as no leader makes
the node drop an entry that it has committed.
-/
namespace RaftNodeCommit

open LittleEndianCodec WalSegment WalEngine WalContents ReplicatedLog ReplicatedLogContents
open WalEntry (Crc32 ieee WalError)
open RaftPersistentState RaftSnapshot RaftNode RaftNodeFrame RaftNodeHandlers RaftNodeLogs
open RaftNodeVotes RaftNodeAppends RaftNodeMoves RaftNodeLife RaftNodeJournal RaftCluster
open RaftNodeWrites FullLog

/-- A request that passes conflicts with no committed entry. -/
def KeepsCommitted (n : Node) (req : AppendEntriesRequest) : Prop :=
  Passes n req → ∀ e ∈ req.entries, e.index ≤ n.commitIndex →
    ∀ t, n.log.termAt e.index = some t → t = e.term

structure Bounds (n : Node) : Prop where
  snapshot : n.log.snapshotIndex ≤ n.commitIndex
  last : n.commitIndex ≤ n.log.lastIndex

structure Invariant (n : Node) (d : Doing) : Prop extends Bounds n where
  contiguous : n.log.toLogView.Contiguous
  writing : ∀ index data, d = .writing index data → index = n.log.lastIndex

/-- The log still has what `v` had up to `k`. -/
structure Front (v : LogView) (k : ℕ) (w : LogView) : Prop where
  point : w.snapshotIndex = v.snapshotIndex
  last : k ≤ w.lastIndex
  terms : ∀ i ≤ k, w.termAt i = v.termAt i

theorem Front.refl {v : LogView} {k : ℕ} (h : k ≤ v.lastIndex) : Front v k v :=
  ⟨rfl, h, fun _ _ => rfl⟩

theorem termAt_push {v : LogView} {i : ℕ} (hi : i ≤ v.lastIndex) (t : ℕ) (data : Bytes) :
    (v.push t data).termAt i = v.termAt i := by
  by_cases hlow : v.snapshotIndex < i
  · rw [LogView.lastIndex] at hi
    have hlow' : (v.push t data).snapshotIndex < i := hlow
    rw [termAt_above hlow, termAt_above hlow']
    show ((v.entries ++ [_])[i - v.snapshotIndex - 1]?).map _ = _
    rw [List.getElem?_append_left (by omega)]
  · have hindex : (v.push t data).snapshotIndex = v.snapshotIndex := rfl
    exact termAt_hidden hindex rfl (Nat.not_lt.mp hlow)

theorem termAt_cut {v : LogView} {i j : ℕ} (hj : j < i) : (v.cut i).termAt j = v.termAt j := by
  by_cases hlow : v.snapshotIndex < j
  · have hlow' : (v.cut i).snapshotIndex < j := hlow
    rw [termAt_above hlow, termAt_above hlow']
    show ((v.entries.take _)[j - v.snapshotIndex - 1]?).map _ = _
    rw [List.getElem?_take_of_lt (by omega)]
  · have hindex : (v.cut i).snapshotIndex = v.snapshotIndex := rfl
    exact termAt_hidden hindex rfl (Nat.not_lt.mp hlow)

theorem Front.push {v w : LogView} {k : ℕ} (h : Front v k w) (t : ℕ) (data : Bytes) :
    Front v k (w.push t data) := by
  refine ⟨h.point, ?_, ?_⟩
  · rw [LogView.push_lastIndex]
    exact Nat.le_succ_of_le h.last
  · intro i hi
    rw [termAt_push (hi.trans h.last)]
    exact h.terms i hi

theorem Front.cut {v w : LogView} {k : ℕ} (h : Front v k w) {i : ℕ} (hi : k < i)
    (hlow : w.snapshotIndex < i) (hlast : i ≤ w.lastIndex) : Front v k (w.cut i) := by
  refine ⟨h.point, ?_, ?_⟩
  · rw [LogView.lastIndex] at hlast
    simp only [LogView.cut, LogView.lastIndex, List.length_take]
    omega
  · intro j hj
    rw [termAt_cut (by omega)]
    exact h.terms j hj

section

variable [Crc32]

theorem onAppendEntries_front {n : Node} {req : AppendEntriesRequest} (h : Bounds n)
    (hkeeps : KeepsCommitted n req) :
    Front n.log.toLogView n.commitIndex (n.onAppendEntries req).2.log.toLogView := by
  apply onAppendEntries_induction (Front.refl h.last) (fun _ t data hv => hv.push t data)
  intro hpass v hv e he t ht hne hlow hlast
  apply hv.cut ?_ hlow hlast
  by_contra hle
  have hle := Nat.not_lt.mp hle
  rw [hv.terms _ hle] at ht
  exact hne (hkeeps hpass e he hle t ht)

theorem onAppendEntries_commit {n : Node} {req : AppendEntriesRequest} (h : Bounds n)
    (hkeeps : KeepsCommitted n req) :
    Bounds (n.onAppendEntries req).2 ∧ n.commitIndex ≤ (n.onAppendEntries req).2.commitIndex := by
  have hfront := onAppendEntries_front h hkeeps
  have hpoint := h.snapshot
  have hlast := hfront.last
  have hcommit : (n.onAppendEntries req).2.commitIndex = n.commitIndex ∨
      req.leaderCommit > n.commitIndex ∧ (n.onAppendEntries req).2.commitIndex =
        min req.leaderCommit (n.onAppendEntries req).2.log.lastIndex := by
    obtain ⟨_, hacc, _⟩ := acceptLeader_log n req.term req.leaderId
    obtain ⟨_, ⟨_, _, hn | hn⟩ | ⟨_, _, hn⟩⟩ := onAppendEntries_cases n req
    · rw [hn]
      exact Or.inl rfl
    · rw [hn]
      exact Or.inl hacc
    · rw [hn]
      dsimp only
      by_cases hgt : req.leaderCommit > n.commitIndex
      · rw [if_pos hgt]
        exact Or.inr ⟨hgt, rfl⟩
      · rw [if_neg hgt]
        exact Or.inl rfl
  rcases hcommit with heq | ⟨hgt, heq⟩
  · exact ⟨⟨by rw [hfront.point, heq]; exact hpoint, by rw [heq]; exact hlast⟩,
      Nat.le_of_eq heq.symm⟩
  · refine ⟨⟨?_, ?_⟩, ?_⟩
    · rw [hfront.point, heq]
      omega
    · rw [heq]
      exact Nat.min_le_right _ _
    · omega

theorem onInstallSnapshot_commit {n : Node} (h : Bounds n)
    (hcont : n.log.toLogView.Contiguous) (req : InstallSnapshotRequest) :
    Bounds (n.onInstallSnapshot req).2 ∧
      n.commitIndex ≤ (n.onInstallSnapshot req).2.commitIndex := by
  have hpoint := h.snapshot
  have hlast := h.last
  rcases onInstallSnapshot_cases n req with hsame | ⟨_, hi, ⟨hview, heq⟩ | ⟨hview, heq⟩⟩
  · refine ⟨⟨?_, ?_⟩, Nat.le_of_eq hsame.commitIndex.symm⟩
    · rw [hsame.log, hsame.commitIndex]
      exact hpoint
    · rw [hsame.log, hsame.commitIndex]
      exact hlast
  · refine ⟨⟨?_, ?_⟩, Nat.le_of_eq heq.symm⟩
    · rw [hview, heq]
      exact hpoint
    · rw [hview, heq]
      exact hlast
  · have hlast' : (n.log.replaySnapshot req.lastIncludedIndex req.lastIncludedTerm).lastIndex =
        max req.lastIncludedIndex n.log.lastIndex := by
      simp only [LogView.lastIndex, LogView.replaySnapshot]
      rw [hcont.filter_above (Nat.le_of_lt hi), List.length_drop]
      omega
    refine ⟨⟨?_, ?_⟩, ?_⟩
    · rw [hview, heq]
      exact Nat.le_max_right _ _
    · rw [hview, heq, hlast']
      omega
    · rw [heq]
      exact Nat.le_max_left _ _

theorem startWrite_commitIndex (n : Node) (data : Bytes) :
    (n.startWrite data).2.commitIndex = n.commitIndex := by
  rcases startWrite_node n data with hn | hn
  · rw [hn]
  · rw [hn]
    rfl

theorem startWrite_commit {n : Node} (h : Bounds n) (data : Bytes) :
    Bounds (n.startWrite data).2 := by
  have hpoint := h.snapshot
  have hlast := h.last
  rcases startWrite_cases n data with ⟨_, hview⟩ | ⟨_, _, hview⟩
  · constructor
    · rw [hview, startWrite_commitIndex]
      exact hpoint
    · rw [hview, startWrite_commitIndex]
      exact hlast
  · constructor
    · rw [hview, startWrite_commitIndex]
      exact hpoint
    · rw [hview, startWrite_commitIndex, LogView.push_lastIndex]
      exact Nat.le_succ_of_le hlast

/-- The entry that is committed is the last one. -/
theorem commitWrite_commit {n : Node} {index : ℕ} (h : Bounds n)
    (hindex : index = n.log.lastIndex) (acks : ℕ) :
    Bounds (n.commitWrite index acks).2 ∧
      n.commitIndex ≤ (n.commitWrite index acks).2.commitIndex := by
  have hpoint := h.snapshot
  have hlast := h.last
  rcases commitWrite_cases n index acks with
    ⟨_, hn⟩ | ⟨_, _, heq, _, hview | ⟨hi, hview⟩⟩
  · rw [hn]
    exact ⟨h, le_rfl⟩
  · refine ⟨⟨?_, ?_⟩, ?_⟩
    · rw [hview, heq]
      omega
    · rw [hview, heq]
      exact Nat.le_of_eq hindex
    · rw [heq]
      omega
  · refine ⟨⟨?_, ?_⟩, ?_⟩
    · rw [hview, heq]
      exact le_rfl
    · rw [hview, heq, compactTo_lastIndex _ hi]
      exact Nat.le_max_left _ _
    · rw [heq]
      omega

/-- Every leader's call keeps what is committed, and a process that starts finds no snapshot
in its log. -/
def commitConditions : Conditions where
  action n a := Room n a ∧ ∀ req, a = .appendEntries req → KeepsCommitted n req
  restart img := ∀ log, RaftLog.open walConfig img.wal = .ok log → log.snapshotIndex = 0

theorem act_bounds {n : Node} {d d' : Doing} {a : Action} (h : Invariant n d)
    (hturn : Turn n d a d') (hok : commitConditions.action n a) :
    Bounds (n.act a) ∧ n.commitIndex ≤ (n.act a).commitIndex := by
  by_cases ha : TouchesLog a
  · cases hturn with
    | appendEntries req =>
      exact onAppendEntries_commit (n := n.begin) ⟨h.snapshot, h.last⟩ (hok.2 req rfl)
    | installSnapshot req =>
      exact onInstallSnapshot_commit (n := n.begin) ⟨h.snapshot, h.last⟩ h.contiguous req
    | @writeRefused data e hwrite =>
      exact ⟨startWrite_commit (n := n.begin) ⟨h.snapshot, h.last⟩ data,
        Nat.le_of_eq (startWrite_commitIndex n.begin data).symm⟩
    | @writeStarted data index hwrite =>
      exact ⟨startWrite_commit (n := n.begin) ⟨h.snapshot, h.last⟩ data,
        Nat.le_of_eq (startWrite_commitIndex n.begin data).symm⟩
    | @finishWrite index data appends snapshots happends hsnapshots =>
      have hrep := (begin_untouched n).trans
        (finishReplication_untouched n.begin index appends snapshots)
      have hb : Bounds (n.begin.finishReplication index appends snapshots).2 := by
        constructor
        · rw [hrep.log, hrep.commitIndex]
          exact h.snapshot
        · rw [hrep.log, hrep.commitIndex]
          exact h.last
      have hlast : index =
          (n.begin.finishReplication index appends snapshots).2.log.lastIndex := by
        rw [hrep.log]
        exact h.writing index data rfl
      obtain ⟨hm, hle⟩ := commitWrite_commit hb hlast
        (n.begin.finishReplication index appends snapshots).1
      rw [hrep.commitIndex] at hle
      rw [Node.act, finishWrite_eq]
      exact ⟨hm, hle⟩
    | _ => exact ha.elim
  · have hm := act_untouched (n := n) ha
    refine ⟨⟨?_, ?_⟩, Nat.le_of_eq hm.commitIndex.symm⟩
    · rw [hm.log, hm.commitIndex]
      exact h.snapshot
    · rw [hm.log, hm.commitIndex]
      exact h.last

theorem act_commit {n : Node} {d d' : Doing} {a : Action} (h : Invariant n d)
    (hturn : Turn n d a d') (hok : commitConditions.action n a) :
    Invariant (n.act a) d' ∧ n.commitIndex ≤ (n.act a).commitIndex := by
  obtain ⟨hbounds, hle⟩ := act_bounds h hturn hok
  have hcont := act_contiguous h.contiguous a
  exact ⟨⟨hbounds, hcont, fun _ _ hd => turn_writing hturn hd⟩, hle⟩

/-- A process that starts has committed nothing. -/
theorem start_commit {id : NodeId} {peers : List NodeId} {stateFile snapshotFile : Option Bytes}
    {wal : Dir} {n : Node} (hstart : Node.start id peers stateFile wal snapshotFile = .ok n)
    (hzero : n.log.snapshotIndex = 0) (hcont : n.log.toLogView.Contiguous) :
    Invariant n .idle := by
  obtain ⟨log, hopen, hn⟩ := start_cases hstart
  refine ⟨⟨?_, ?_⟩, hcont, ?_⟩
  · rw [hzero]
    exact Nat.zero_le _
  · rw [hn.commitIndex]
    exact Nat.zero_le _
  · intro index data heq
    cases heq

def InvariantStage : Stage → Prop
  | .up n d => Invariant n d
  | .down _ => True

theorem commit_sound {id : NodeId} {peers : List NodeId} {st : Stage}
    (life : NodeLife (lifeConditions commitConditions) id peers st) : SoundStage False st := by
  apply life_sound ?_ ?_ False.elim life
  · intro n a hok
    exact hok.1
  · intro img file hok
    exact hok.1

theorem life_commit {id : NodeId} {peers : List NodeId} {st : Stage}
    (life : NodeLife (lifeConditions commitConditions) id peers st) : InvariantStage st := by
  induction life with
  | new hstart =>
    have hview := (start_empty hstart).1
    apply start_commit hstart
    · rw [hview]
      rfl
    · rw [hview]
      exact .empty
  | act life hturn hb hok ih => exact (act_commit ih hturn hok).1
  | crash life hturn hb hok himg ih => trivial
  | @restart img file n life hok hstart ih =>
    obtain ⟨rfl, hzero⟩ := hok
    have hrecoverable : Recoverable False img := commit_sound life
    obtain ⟨log, hopen, hn⟩ := start_cases hstart
    have hlog := hn.log
    subst hlog
    have hzero := hzero _ hopen
    obtain ⟨_, hindex, _, hwhole⟩ := start_sound hrecoverable hstart
    obtain ⟨hview, hcont⟩ := hwhole (hindex ▸ hzero)
    apply start_commit hstart hzero
    rw [hview]
    exact hcont

/-- Steps of the cluster during which the process stays up. -/
inductive StaysUp (c : Cluster) (ok : Conditions) (id : NodeId) : State → State → Prop where
  | refl (s : State) : StaysUp c ok id s s
  | step {s s' s'' : State} {e : Option Event} (path : StaysUp c ok id s s')
      (hstep : Step c ok s' e s'') (hup : (s''.processes id).node ≠ none) :
      StaysUp c ok id s s''

theorem invariant_of_node {c : Cluster} {es : List Event} {s : State} {id : NodeId} {n : Node}
    (run : ClusterRun c commitConditions es s) (hid : id ∈ c.members)
    (hnode : (s.processes id).node = some n) : ∃ d, Invariant n d := by
  have hlife := life_commit (life_of_run run hid)
  obtain ⟨d, hstage⟩ := stage_of_node hnode
  rw [hstage] at hlife
  exact ⟨d, hlife⟩

theorem step_commit {c : Cluster} {es : List Event} {s s' : State} {id : NodeId} {e : Option Event}
    {n : Node} (run : ClusterRun c commitConditions es s) (hid : id ∈ c.members)
    (hnode : (s.processes id).node = some n) (hstep : Step c commitConditions s e s')
    (hup : (s'.processes id).node ≠ none) :
    ∃ m, (s'.processes id).node = some m ∧ n.commitIndex ≤ m.commitIndex := by
  cases hstep with
  | @act i k a o hi hact hb hok =>
    by_cases hsame : id = i
    · subst hsame
      rw [hact.node] at hnode
      cases hnode
      obtain ⟨d, hstage, hturn⟩ := turn_of_act hact
      have hlife := life_commit (life_of_run run hid)
      rw [hstage] at hlife
      refine ⟨_, ?_, (act_commit hlife hturn hok).2⟩
      rw [State.after_self, Process.up_node]
    · rw [State.after_of_ne _ _ _ hsame]
      exact ⟨n, hnode, le_rfl⟩
  | @crash i k a o img hi hact hb hok himg =>
    by_cases hsame : id = i
    · subst hsame
      rw [State.set_self] at hup
      exact absurd rfl hup
    · rw [State.set_of_ne _ _ hsame]
      exact ⟨n, hnode, le_rfl⟩
  | @restart i img m hi hdown hok hstart =>
    by_cases hsame : id = i
    · subst hsame
      rw [hdown] at hnode
      cases hnode
    · rw [State.set_of_ne _ _ hsame]
      exact ⟨n, hnode, le_rfl⟩

/-- In every state of such a run the commit index lies between the snapshot index and the
last index, and it never decreases while the process stays up. -/
theorem commit_index_in_bounds {c : Cluster} {es : List Event} {s : State} {id : NodeId} {n : Node}
    (run : ClusterRun c commitConditions es s) (hid : id ∈ c.members)
    (hnode : (s.processes id).node = some n) :
    Bounds n ∧ ∀ s', StaysUp c commitConditions id s s' →
      ∃ m, (s'.processes id).node = some m ∧ n.commitIndex ≤ m.commitIndex := by
  obtain ⟨d, hn⟩ := invariant_of_node run hid hnode
  refine ⟨hn.toBounds, ?_⟩
  intro s' path
  have hpath : (∃ es', ClusterRun c commitConditions es' s') ∧
      ∃ m, (s'.processes id).node = some m ∧ n.commitIndex ≤ m.commitIndex := by
    induction path with
    | refl => exact ⟨⟨es, run⟩, n, hnode, le_rfl⟩
    | step path hstep hup ih =>
      obtain ⟨⟨es', run'⟩, m, hm, hle⟩ := ih
      obtain ⟨m', hm', hle'⟩ := step_commit run' hid hm hstep hup
      exact ⟨⟨_, run'.step hstep⟩, m', hm', hle.trans hle'⟩
  exact hpath.2

end

/-- A cluster of one that has committed three writes. -/
theorem commit_index_in_bounds_three_writes :
    ∃ c es s n, @ClusterRun ieee c (@commitConditions ieee) es s ∧ "n1" ∈ c.members ∧
      (s.processes "n1").node = some n ∧ n.commitIndex = 3 ∧ Bounds n ∧
      ∀ s', @StaysUp ieee c (@commitConditions ieee) "n1" s s' →
        ∃ m, (s'.processes "n1").node = some m ∧ 3 ≤ m.commitIndex := by
  let _ : Crc32 := ieee
  have hallows : AllowsOwn commitConditions (fun _ => True) := by
    intro n a hown hroom _
    refine ⟨hroom, ?_⟩
    intro req ha
    rw [ha] at hown
    exact hown.elim
  obtain ⟨c, s, n, run, hmembers, hup, halone, _⟩ := run_elected_alone hallows trivial
  have hid : "n1" ∈ c.members := by
    rw [hmembers]
    exact List.mem_singleton_self _
  obtain ⟨s', m, run', hup', halone', _⟩ := run_writes run hid hup halone
    (fitsSegment_byte 7) (by decide)
    (by decide) hallows (fun _ _ => trivial) 3 (by decide)
  have hnode : (s'.processes "n1").node = some m := by
    rw [hup']
    rfl
  have hthree : m.commitIndex = 3 := halone'.commitIndex
  obtain ⟨hbounds, hlater⟩ := commit_index_in_bounds run' hid hnode
  rw [hthree] at hlater
  exact ⟨c, _, s', m, run', hid, hnode, hthree, hbounds, hlater⟩

/-- The limits of the fields alone. -/
def inRoom : Conditions := ⟨Room, fun _ => True⟩

/-- After a restart behind a snapshot the commit index is below the snapshot index. -/
theorem commit_index_below_snapshot :
    ¬ ∀ (c : Cluster) (es : List Event) (s : State), @ClusterRun ieee c anything es s →
      ∀ id ∈ c.members, ∀ n, (s.processes id).node = some n → Bounds n := by
  intro hclaim
  let _ : Crc32 := ieee
  have hallows : AllowsOwn inRoom (fun _ => True) := fun _ _ _ hroom _ => hroom
  obtain ⟨c, s, n, run, hmembers, hup, halone, _⟩ := run_elected_alone hallows trivial
  have hid : "n1" ∈ c.members := by
    rw [hmembers]
    exact List.mem_singleton_self _
  obtain ⟨s, m, run, hup, halone, _⟩ := run_snapshot run hid hup halone
    (fitsSegment_byte 7) (by decide)
    (by decide) hallows (fun _ _ => trivial)
  have hb : Bounded m (.clientRead 1) := by
    rw [Bounded]
    show m.ps.currentTerm < 2 ^ 64
    rw [halone.term]
    decide
  have hact : Act s "n1" m (.clientRead 1) _ := .clientRead hup
  have htrail : m.image ∈ (m.act (.clientRead 1)).trail := List.mem_singleton_self _
  have run := run.step (.crash hid hact hb trivial htrail)
  have himg : Recoverable False m.image := by
    have hlife := life_of_run run hid
    rw [State.set_self] at hlife
    apply life_sound ?_ ?_ False.elim hlife
    · intro n a hok
      exact hok
    · intro img file hok
      exact hok.1
  obtain ⟨w, k, hst, hdir, hcfg, _⟩ := himg.journal
  obtain ⟨log, hopen, _⟩ := open_log_spec hst
  rw [hcfg, hdir] at hopen
  obtain ⟨n', hstart, hn'⟩ := start_ok "n1" (c.peers "n1") m.image.stateFile
    m.image.snapshotFile hopen
  have run := run.step (.restart hid (State.set_self ..) trivial hstart)
  obtain ⟨_, hindex, _⟩ := start_sound himg hstart
  have hbounds := (hclaim c _ _ run.anything "n1" hid n' (by rw [State.set_self]; rfl)).snapshot
  have hview : m.image.view = ⟨[], 100, 1⟩ := halone.view
  rw [hn'.commitIndex, hindex, hview] at hbounds
  exact absurd hbounds (by decide)

end RaftNodeCommit
