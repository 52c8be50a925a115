import DistributedWal.RaftNodeLife
import DistributedWal.RaftNodeAppends

/-! # What an action can do to the log

Whether or not the WAL takes the records. Only the handlers of a leader's calls and the two
halves of a write touch the log, the commit index and the snapshot.
-/
namespace RaftNodeMoves

open LittleEndianCodec WalSegment WalEngine WalContents ReplicatedLog ReplicatedLogContents
open WalEntry (Crc32 ieee WalError)
open RaftPersistentState RaftSnapshot RaftNode RaftNodeFrame RaftNodeHandlers RaftNodeLogs
open RaftNodeAppends RaftNodeLife

/-- The files of the image are those of the node, up to the state file. -/
def Pictures (n : Node) (img : Image) : Prop :=
  img.wal = n.log.wal.dir ∧ img.snapshotFile = n.snapshotFile ∧ img.view = n.log.toLogView

/-- Log, commit index and snapshot are the same, in memory and on disk. -/
structure Untouched (n n' : Node) : Prop where
  log : n'.log = n.log
  commitIndex : n'.commitIndex = n.commitIndex
  snapshot : n'.snapshot = n.snapshot
  snapshotFile : n'.snapshotFile = n.snapshotFile
  snapshotTrigger : n'.snapshotTrigger = n.snapshotTrigger
  entriesSinceSnapshot : n'.entriesSinceSnapshot = n.entriesSinceSnapshot
  images : ∀ img ∈ n'.trail, img ∈ n.trail ∨ Pictures n img

theorem Untouched.rfl {n : Node} : Untouched n n :=
  ⟨Eq.refl _, Eq.refl _, Eq.refl _, Eq.refl _, Eq.refl _, Eq.refl _, fun _ h => Or.inl h⟩

theorem Untouched.trans {n₁ n₂ n₃ : Node} (h : Untouched n₁ n₂) (k : Untouched n₂ n₃) :
    Untouched n₁ n₃ := by
  refine ⟨k.log.trans h.log, k.commitIndex.trans h.commitIndex, k.snapshot.trans h.snapshot,
    k.snapshotFile.trans h.snapshotFile, k.snapshotTrigger.trans h.snapshotTrigger,
    k.entriesSinceSnapshot.trans h.entriesSinceSnapshot, ?_⟩
  intro img himg
  rcases k.images img himg with hold | hnew
  · exact h.images img hold
  · rw [Pictures, h.log, h.snapshotFile] at hnew
    exact Or.inr hnew

theorem Untouched.mark {n n' : Node} (h : Untouched n n') : Untouched n n'.mark := by
  refine ⟨h.log, h.commitIndex, h.snapshot, h.snapshotFile, h.snapshotTrigger,
    h.entriesSinceSnapshot, ?_⟩
  intro img himg
  rcases List.mem_append.mp himg with hold | hnew
  · exact h.images img hold
  · obtain rfl := List.mem_singleton.mp hnew
    right
    rw [Pictures, ← h.log, ← h.snapshotFile]
    exact ⟨Eq.refl _, Eq.refl _, Eq.refl _⟩

/-- A change of role, term, vote or progress. -/
theorem Untouched.volatile {n n' : Node} (hlog : n'.log = n.log)
    (hcommit : n'.commitIndex = n.commitIndex) (hsnap : n'.snapshot = n.snapshot)
    (hfile : n'.snapshotFile = n.snapshotFile) (htrigger : n'.snapshotTrigger = n.snapshotTrigger)
    (hsince : n'.entriesSinceSnapshot = n.entriesSinceSnapshot) (htrail : n'.trail = n.trail) :
    Untouched n n' :=
  ⟨hlog, hcommit, hsnap, hfile, htrigger, hsince, fun _ h => Or.inl (htrail ▸ h)⟩

theorem begin_untouched (n : Node) : Untouched n n.begin := by
  refine ⟨rfl, rfl, rfl, rfl, rfl, rfl, ?_⟩
  intro img himg
  obtain rfl := List.mem_singleton.mp himg
  exact Or.inr ⟨rfl, rfl, rfl⟩

theorem advanceTerm_untouched (n : Node) (t : ℕ) : Untouched n (n.advanceTerm t) :=
  Untouched.mark (.volatile rfl rfl rfl rfl rfl rfl rfl)

theorem recordVote_untouched (n : Node) (c : NodeId) : Untouched n (n.recordVote c) :=
  Untouched.mark (.volatile rfl rfl rfl rfl rfl rfl rfl)

theorem stepDown_untouched (n : Node) (t : ℕ) : Untouched n (n.stepDown t) :=
  (advanceTerm_untouched n t).trans (.volatile rfl rfl rfl rfl rfl
    rfl rfl)

theorem observeTerm_untouched (n : Node) (t : ℕ) : Untouched n (observeTerm n t) := by
  rw [observeTerm]
  split
  · exact (advanceTerm_untouched n t).trans (.volatile rfl rfl rfl rfl
      rfl rfl rfl)
  · exact .rfl

theorem acceptLeader_untouched (n : Node) (t : ℕ) (leader : NodeId) :
    Untouched n (n.acceptLeader t leader) := by
  rw [Node.acceptLeader]
  split
  · exact (advanceTerm_untouched n t).trans (.volatile rfl rfl rfl rfl
      rfl rfl rfl)
  · exact .volatile rfl rfl rfl rfl rfl rfl rfl

theorem withProgress_untouched (n : Node) (ni mi : NodeId → Option ℕ) :
    Untouched n (withProgress n ni mi) :=
  .volatile rfl rfl rfl rfl rfl rfl rfl

theorem finishReplication_untouched (n : Node) (upTo : ℕ)
    (appends : List (NodeId × Option AppendEntriesResponse))
    (snapshots : List (NodeId × Option InstallSnapshotResponse)) :
    Untouched n (n.finishReplication upTo appends snapshots).2 := by
  obtain ⟨_, ⟨ni, mi, hn⟩ | ⟨t, ni, mi, _, _, hn⟩⟩ :=
    finishReplication_cases n upTo appends snapshots
  · rw [hn]
    exact withProgress_untouched n ni mi
  · rw [hn]
    exact (withProgress_untouched n ni mi).trans (stepDown_untouched _ t)

/-- The actions that may do something to the log. -/
def TouchesLog : Action → Prop
  | .appendEntries _ => True
  | .installSnapshot _ => True
  | .startWrite _ => True
  | .finishWrite _ _ _ => True
  | _ => False

/-- The log after a compaction. -/
def compactTo (v : LogView) (i t : ℕ) : LogView :=
  ⟨v.entries.drop (min i v.lastIndex - v.snapshotIndex), i, t⟩

theorem compactTo_lastIndex (v : LogView) {i t : ℕ} (hi : v.snapshotIndex < i) :
    (compactTo v i t).lastIndex = max i v.lastIndex := by
  simp only [compactTo, LogView.lastIndex, List.length_drop]
  omega

theorem compactTo_last (v : LogView) (t : ℕ) :
    compactTo v v.lastIndex t = ⟨[], v.lastIndex, t⟩ := by
  rw [compactTo, Nat.min_self, List.drop_eq_nil_of_le]
  rw [LogView.lastIndex]
  omega

theorem compactTo_contiguous {v : LogView} (h : v.Contiguous) {i : ℕ}
    (hi : v.snapshotIndex < i) (t : ℕ) : (compactTo v i t).Contiguous := by
  intro k e hk
  rw [compactTo, List.getElem?_drop] at hk
  have hlt := (List.getElem?_eq_some_iff.mp hk).1
  have := h _ e hk
  rw [LogView.lastIndex] at hlt this
  show e.index = i + 1 + k
  omega

section

variable [Crc32]

theorem act_untouched {n : Node} {a : Action} (ha : ¬ TouchesLog a) : Untouched n (n.act a) := by
  have hbegin := begin_untouched n
  cases a with
  | appendEntries req => exact absurd trivial ha
  | installSnapshot req => exact absurd trivial ha
  | startWrite data => exact absurd trivial ha
  | finishWrite index appends snapshots => exact absurd trivial ha
  | requestVote req =>
    have hobs := hbegin.trans (observeTerm_untouched n.begin req.term)
    rw [Node.act]
    obtain ⟨_, ⟨_, hn⟩ | ⟨_, hn, _⟩⟩ := onRequestVote_cases n.begin req
    · rw [hn]
      exact hobs
    · rw [hn]
      exact hobs.trans (recordVote_untouched _ _)
  | startElection =>
    exact hbegin.trans ((advanceTerm_untouched _ _).trans ((recordVote_untouched _ _).trans
      (.volatile rfl rfl rfl rfl rfl rfl rfl)))
  | finishElection results =>
    rw [Node.act]
    rcases finishElection_cases n.begin results with
      ⟨r, _, _, hn⟩ | ⟨hn, _⟩ | hn | ⟨hn, _⟩
    · rw [hn]
      exact hbegin.trans (stepDown_untouched _ _)
    · rw [hn]
      exact hbegin
    · rw [hn]
      exact hbegin.trans (.volatile rfl rfl rfl rfl rfl rfl rfl)
    · rw [hn]
      exact hbegin.trans (.volatile rfl rfl rfl rfl rfl rfl rfl)
  | sendHeartbeats => exact hbegin
  | clientRead fromIndex => exact hbegin
  | finishHeartbeats results =>
    rw [Node.act]
    rcases finishHeartbeats_cases n.begin results with hn | ⟨r, _, _, hn⟩
    · rw [hn]
      exact hbegin
    · rw [hn]
      exact hbegin.trans (stepDown_untouched _ _)

theorem append_cases (log : RaftLog) (term : ℕ) (data : Bytes) :
    (log.append term data).1 = .ok (log.lastIndex + 1) ∧
        (log.append term data).2.toLogView = log.toLogView.push term data ∨
      (∃ e, (log.append term data).1 = .error e) ∧
        (log.append term data).2.toLogView = log.toLogView := by
  rw [RaftLog.append]
  split
  · exact Or.inr ⟨⟨_, rfl⟩, rfl⟩
  · exact Or.inl ⟨rfl, rfl⟩

theorem truncateFrom_cases (log : RaftLog) (i : ℕ) :
    (log.truncateFrom i).2.toLogView = log.toLogView ∨
      log.snapshotIndex < i ∧ i ≤ log.lastIndex ∧
        (log.truncateFrom i).2.toLogView = log.toLogView.cut i := by
  rw [RaftLog.truncateFrom]
  split
  · exact Or.inl rfl
  · rename_i hin
    split
    · exact Or.inl rfl
    · exact Or.inr ⟨by omega, by omega, rfl⟩

theorem compact_cases (log : RaftLog) (i t : ℕ) :
    (log.compact i t).2.toLogView = log.toLogView ∨
      log.snapshotIndex < i ∧ (log.compact i t).2.toLogView = compactTo log.toLogView i t := by
  rw [RaftLog.compact]
  split
  · exact Or.inl rfl
  · rename_i hi
    split
    · exact Or.inl rfl
    · refine Or.inr ⟨Nat.not_le.mp hi, ?_⟩
      dsimp only
      split
      · rename_i htrim
        rw [compactTo, List.drop_eq_nil_of_le htrim]
      · rfl

theorem installSnapshot_cases (log : RaftLog) (i t : ℕ) :
    (∃ e, (log.installSnapshot i t).1 = .error e) ∧
        (log.installSnapshot i t).2.toLogView = log.toLogView ∨
      (log.installSnapshot i t).1 = .ok () ∧ (log.installSnapshot i t).2.toLogView =
        if i ≤ log.snapshotIndex then log.toLogView else log.toLogView.replaySnapshot i t := by
  rw [RaftLog.installSnapshot]
  split
  · exact Or.inr ⟨rfl, rfl⟩
  · split
    · exact Or.inl ⟨⟨_, rfl⟩, rfl⟩
    · exact Or.inr ⟨rfl, rfl⟩

theorem truncateLog_cases (n : Node) (i : ℕ) :
    (n.truncateLog i).log.toLogView = n.log.toLogView ∨
      n.log.snapshotIndex < i ∧ i ≤ n.log.lastIndex ∧
        (n.truncateLog i).log.toLogView = n.log.toLogView.cut i := truncateFrom_cases n.log i

theorem appendLog_cases (n : Node) (term : ℕ) (data : Bytes) :
    (n.appendLog term data).1 = .ok (n.log.lastIndex + 1) ∧
        (n.appendLog term data).2.log.toLogView = n.log.toLogView.push term data ∨
      (∃ e, (n.appendLog term data).1 = .error e) ∧
        (n.appendLog term data).2.log.toLogView = n.log.toLogView := append_cases n.log term data

theorem installLog_cases (n : Node) (i t : ℕ) :
    (∃ e, (n.installLog i t).1 = .error e) ∧
        (n.installLog i t).2.log.toLogView = n.log.toLogView ∨
      (n.installLog i t).1 = .ok () ∧ (n.installLog i t).2.log.toLogView =
        if i ≤ n.log.snapshotIndex then n.log.toLogView else n.log.toLogView.replaySnapshot i t :=
  installSnapshot_cases n.log i t

/-- What holds of the log and survives a new entry at its end and a cut at a conflict holds
after the loop of rule 4. -/
theorem storeEntries_induction {P : LogView → Prop} {n : Node} {entries : List LogEntry}
    (h : P n.log.toLogView) (hpush : ∀ v term data, P v → P (v.push term data))
    (hcut : ∀ v, P v → ∀ e ∈ entries, ∀ t, v.termAt e.index = some t → t ≠ e.term →
      v.snapshotIndex < e.index → e.index ≤ v.lastIndex → P (v.cut e.index)) :
    P (n.storeEntries entries).log.toLogView := by
  have happend : ∀ (m : Node) (term : ℕ) (data : Bytes), P m.log.toLogView →
      P (m.appendLog term data).2.log.toLogView := by
    intro m term data hm
    rcases appendLog_cases m term data with ⟨_, hview⟩ | ⟨_, hview⟩
    · rw [hview]
      exact hpush _ _ _ hm
    · rw [hview]
      exact hm
  induction entries generalizing n with
  | nil => exact h
  | cons e entries ih =>
    have hstep : P (n.storeEntry e).log.toLogView := by
      rw [Node.storeEntry]
      cases ht : n.log.termAt e.index with
      | none => exact happend n _ _ h
      | some t =>
        dsimp only
        by_cases hterm : t = e.term
        · rw [if_pos hterm]
          exact h
        · rw [if_neg hterm]
          apply happend
          rcases truncateLog_cases n e.index with hview | ⟨hlow, hlast, hview⟩
          · rw [hview]
            exact h
          · rw [hview]
            exact hcut _ h e (List.mem_cons_self ..) t ht hterm hlow hlast
    exact ih hstep (fun v hv x hx => hcut v hv x (List.mem_cons_of_mem _ hx))

theorem takeSnapshot_cases (n : Node) :
    n.takeSnapshot.2.commitIndex = n.commitIndex ∧
      n.takeSnapshot.2.nextIndex = n.nextIndex ∧
      (n.takeSnapshot.2.log.toLogView = n.log.toLogView ∨
        n.log.snapshotIndex < n.commitIndex ∧
          n.takeSnapshot.2.log.toLogView = compactTo n.log.toLogView n.commitIndex
            ((n.log.termAt n.commitIndex).getD n.log.snapshotTerm)) := by
  rw [Node.takeSnapshot]
  dsimp only
  split
  · exact ⟨rfl, rfl, Or.inl rfl⟩
  · have hcompact := compact_cases n.log n.commitIndex
      ((n.log.termAt n.commitIndex).getD n.log.snapshotTerm)
    split
    · rename_i m hm
      obtain rfl := congrArg Prod.snd hm
      exact ⟨rfl, rfl, hcompact⟩
    · rename_i m hm
      obtain rfl := congrArg Prod.snd hm
      exact ⟨rfl, rfl, hcompact⟩

/-- The write fails for lack of acks, or commits, maybe with a snapshot up to the new
entry. -/
theorem commitWrite_cases (n : Node) (index acks : ℕ) :
    (n.commitWrite index acks).1 = .error .quorumNotReached ∧
        (n.commitWrite index acks).2 = n ∨
      (n.commitWrite index acks).1 = .ok index ∧ n.quorum ≤ acks ∧
        (n.commitWrite index acks).2.commitIndex = index ∧
        (n.commitWrite index acks).2.nextIndex = n.nextIndex ∧
        ((n.commitWrite index acks).2.log.toLogView = n.log.toLogView ∨
          n.log.snapshotIndex < index ∧
            (n.commitWrite index acks).2.log.toLogView = compactTo n.log.toLogView index
              ((n.log.termAt index).getD n.log.snapshotTerm)) := by
  rw [Node.commitWrite]
  split
  · exact Or.inl ⟨rfl, rfl⟩
  · rename_i hacks
    refine Or.inr ⟨rfl, Nat.not_lt.mp hacks, ?_⟩
    dsimp only
    split
    · exact takeSnapshot_cases { n with
        commitIndex := index
        entriesSinceSnapshot := n.entriesSinceSnapshot + 1 }
    · exact ⟨rfl, rfl, Or.inl rfl⟩

theorem startWrite_cases (n : Node) (data : Bytes) :
    (∃ e, (n.startWrite data).1 = .error e) ∧
        (n.startWrite data).2.log.toLogView = n.log.toLogView ∨
      n.role = .leader ∧ (n.startWrite data).1 = .ok (n.log.lastIndex + 1) ∧
        (n.startWrite data).2.log.toLogView = n.log.toLogView.push n.ps.currentTerm data := by
  rw [Node.startWrite]
  split
  · exact Or.inl ⟨⟨_, rfl⟩, rfl⟩
  · rename_i hrole
    have happend := appendLog_cases n n.ps.currentTerm data
    split
    · rename_i e m hm
      rw [hm] at happend
      rcases happend with ⟨hok, _⟩ | ⟨_, hview⟩
      · cases hok
      · exact Or.inl ⟨⟨_, rfl⟩, hview⟩
    · rename_i index m hm
      rw [hm] at happend
      rcases happend with ⟨hok, hview⟩ | ⟨⟨e, herr⟩, _⟩
      · cases hok
        exact Or.inr ⟨not_not.mp hrole, rfl, hview⟩
      · cases herr

/-- What a write waits for is the last index. -/
theorem turn_writing {n : Node} {a : Action} {d d' : Doing} (hturn : Turn n d a d') {index : ℕ}
    {data : Bytes} (hd : d' = .writing index data) : index = (n.act a).log.lastIndex := by
  cases hturn with
  | @writeStarted b i hwrite =>
    cases hd
    rcases startWrite_cases n.begin data with ⟨⟨e, herr⟩, _⟩ | ⟨_, hres, hview⟩
    · rw [hwrite] at herr
      cases herr
    · rw [hwrite] at hres
      cases hres
      rw [Node.act, hview, LogView.push_lastIndex]
  | _ => cases hd

theorem onInstallSnapshot_cases (n : Node) (req : InstallSnapshotRequest) :
    Untouched n (n.onInstallSnapshot req).2 ∨
      n.ps.currentTerm ≤ req.term ∧ n.log.snapshotIndex < req.lastIncludedIndex ∧
        ((n.onInstallSnapshot req).2.log.toLogView = n.log.toLogView ∧
            (n.onInstallSnapshot req).2.commitIndex = n.commitIndex ∨
          (n.onInstallSnapshot req).2.log.toLogView =
              n.log.toLogView.replaySnapshot req.lastIncludedIndex req.lastIncludedTerm ∧
            (n.onInstallSnapshot req).2.commitIndex =
              max n.commitIndex req.lastIncludedIndex) := by
  have hacc := acceptLeader_untouched n req.term req.leaderId
  rw [Node.onInstallSnapshot]
  split
  · exact Or.inl .rfl
  · rename_i hterm
    dsimp only
    split
    · exact Or.inl hacc
    · rename_i hi
      rw [hacc.log] at hi
      refine Or.inr ⟨Nat.not_lt.mp hterm, Nat.not_le.mp hi, ?_⟩
      set saved := (n.acceptLeader req.term req.leaderId).saveSnapshot
        ⟨req.lastIncludedIndex, req.lastIncludedTerm, req.data⟩ with hsaved
      have hlog : saved.log = n.log := hacc.log
      have hcommit : (saved.installLog req.lastIncludedIndex
          req.lastIncludedTerm).2.commitIndex = n.commitIndex := hacc.commitIndex
      have hinstall := installLog_cases saved req.lastIncludedIndex req.lastIncludedTerm
      rw [hlog, if_neg hi] at hinstall
      split
      · rename_i e m hm
        rw [hm] at hinstall hcommit
        rcases hinstall with ⟨_, hview⟩ | ⟨hok, _⟩
        · exact Or.inl ⟨hview, hcommit⟩
        · cases hok
      · rename_i m hm
        rw [hm] at hinstall hcommit
        rcases hinstall with ⟨⟨e, herr⟩, _⟩ | ⟨_, hview⟩
        · cases herr
        · exact Or.inr ⟨hview, congrArg (max · req.lastIncludedIndex) hcommit⟩

theorem onAppendEntries_induction {P : LogView → Prop} {n : Node} {req : AppendEntriesRequest}
    (h : P n.log.toLogView) (hpush : ∀ v term data, P v → P (v.push term data))
    (hcut : Passes n req → ∀ v, P v → ∀ e ∈ req.entries, ∀ t, v.termAt e.index = some t →
      t ≠ e.term → v.snapshotIndex < e.index → e.index ≤ v.lastIndex → P (v.cut e.index)) :
    P (n.onAppendEntries req).2.log.toLogView := by
  have hlog := (acceptLeader_log n req.term req.leaderId).1
  obtain ⟨_, ⟨_, _, hn | hn⟩ | ⟨hpass, _, hn⟩⟩ := onAppendEntries_cases n req
  · rw [hn]
    exact h
  · rw [hn, hlog]
    exact h
  · rw [hn]
    exact storeEntries_induction (hlog ▸ h) hpush (hcut hpass)

/-- Whatever a node does, its log stays contiguous. -/
theorem act_contiguous {n : Node} (h : n.log.toLogView.Contiguous) (a : Action) :
    (n.act a).log.toLogView.Contiguous := by
  by_cases ha : TouchesLog a
  · cases a with
    | appendEntries req =>
      exact onAppendEntries_induction (n := n.begin) h (fun _ t d hv => hv.push t d)
        (fun _ _ hv e _ _ _ _ _ _ => hv.cut e.index)
    | installSnapshot req =>
      rw [Node.act]
      rcases onInstallSnapshot_cases n.begin req with hsame | ⟨_, hi, ⟨hview, _⟩ | ⟨hview, _⟩⟩
      · rw [hsame.log]
        exact h
      · rw [hview]
        exact h
      · rw [hview]
        exact h.above (Nat.le_of_lt hi) _
    | startWrite data =>
      rw [Node.act]
      rcases startWrite_cases n.begin data with ⟨_, hview⟩ | ⟨_, _, hview⟩
      · rw [hview]
        exact h
      · rw [hview]
        exact h.push _ _
    | finishWrite index appends snapshots =>
      have hrep := finishReplication_untouched n.begin index appends snapshots
      rw [Node.act, finishWrite_eq]
      rcases commitWrite_cases (n.begin.finishReplication index appends snapshots).2 index
          (n.begin.finishReplication index appends snapshots).1 with
        ⟨_, hn⟩ | ⟨_, _, _, _, hview | ⟨hi, hview⟩⟩
      · rw [hn, hrep.log]
        exact h
      · rw [hview, hrep.log]
        exact h
      · rw [hview, hrep.log]
        rw [hrep.log] at hi
        exact compactTo_contiguous h hi _
    | _ => exact ha.elim
  · rw [(act_untouched ha).log]
    exact h

end

end RaftNodeMoves
