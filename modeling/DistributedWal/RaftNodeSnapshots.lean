import DistributedWal.RaftNodeWrites

/-! # What a snapshot holds

The payload of a snapshot is made from the entries that the log still has. It holds every
committed entry up to its last index when the log has not been compacted before, and what
a leader sends to a peer is its own snapshot.
-/
namespace RaftNodeSnapshots

open LittleEndianCodec WalSegment WalEngine WalContents ReplicatedLog ReplicatedLogContents
open WalEntry (Crc32 ieee WalError)
open RaftPersistentState RaftSnapshot RaftNode RaftNodeFrame RaftNodeHandlers RaftNodeLogs
open RaftNodeVotes RaftNodeAppends RaftNodeMoves RaftNodeLife RaftNodeJournal RaftCluster
open RaftNodeWrites FullLog

/-- The snapshot that `take_snapshot` makes when everything up to `index` is committed. -/
def snapshotAt (v : LogView) (index : ℕ) : Snapshot :=
  ⟨index, (v.termAt index).getD v.snapshotTerm,
    encodeEntries ((v.entriesFrom (v.snapshotIndex + 1)).filter (fun e => e.index ≤ index))⟩

/-- The snapshots that a node has, in memory, on disk and in the files a crash leaves. -/
structure Snapped (S : Snapshot → Prop) (n : Node) : Prop where
  memory : ∀ snap, n.snapshot = some snap →
    S snap ∧ n.log.snapshotIndex ≤ snap.lastIncludedIndex
  file : SnapshotFile S n.snapshotFile
  images : ∀ img ∈ n.trail, SnapshotFile S img.snapshotFile

/-- The snapshots and the snapshot point stay the same. -/
structure SameSnapshot (n m : Node) : Prop where
  memory : m.snapshot = n.snapshot
  file : m.snapshotFile = n.snapshotFile
  point : m.log.snapshotIndex = n.log.snapshotIndex
  images : ∀ img ∈ m.trail, img ∈ n.trail ∨ img.snapshotFile = n.snapshotFile

theorem SameSnapshot.rfl {n : Node} : SameSnapshot n n :=
  ⟨Eq.refl _, Eq.refl _, Eq.refl _, fun _ h => Or.inl h⟩

theorem SameSnapshot.trans {n₁ n₂ n₃ : Node} (h : SameSnapshot n₁ n₂) (k : SameSnapshot n₂ n₃) :
    SameSnapshot n₁ n₃ := by
  refine ⟨k.memory.trans h.memory, k.file.trans h.file, k.point.trans h.point, ?_⟩
  intro img himg
  rcases k.images img himg with hold | hnew
  · exact h.images img hold
  · exact Or.inr (hnew.trans h.file)

theorem SameSnapshot.of_untouched {n m : Node} (h : Untouched n m) : SameSnapshot n m := by
  refine ⟨h.snapshot, h.snapshotFile, by rw [h.log], ?_⟩
  intro img himg
  rcases h.images img himg with hold | ⟨_, hfile, _⟩
  · exact Or.inl hold
  · exact Or.inr hfile

theorem SnapshotFile.mono {S S' : Snapshot → Prop} {file : Option Bytes}
    (h : SnapshotFile S file) (hS : ∀ snap, S snap → S' snap) : SnapshotFile S' file := by
  intro bytes hbytes
  obtain ⟨snap, heq, hsnap⟩ := h bytes hbytes
  exact ⟨snap, heq, hS snap hsnap⟩

theorem snapshotFile_saved {S : Snapshot → Prop} {snap : Snapshot} (h : S snap) :
    SnapshotFile S (some snap.fileBytes) := by
  intro bytes hbytes
  cases hbytes
  exact ⟨snap, rfl, h⟩

/-- The payload of the snapshot decodes to the entries from index 1 on, all of them
committed. -/
structure Holds (C : LogEntry → Prop) (snap : Snapshot) (es : List LogEntry) : Prop where
  decoded : decodeEntries snap.data = some es
  numbered : Numbered es
  length : es.length = snap.lastIncludedIndex
  committed : ∀ e ∈ es, C e

/-- The fields of the snapshot file. -/
structure FitsFile (snap : Snapshot) : Prop where
  index : snap.lastIncludedIndex < 2 ^ 64
  term : snap.lastIncludedTerm < 2 ^ 64
  data : snap.data.length < 2 ^ 32

def Kept (C : LogEntry → Prop) (snap : Snapshot) : Prop := FitsFile snap ∧ ∃ es, Holds C snap es

theorem Kept.mono {C C' : LogEntry → Prop} {snap : Snapshot} (h : Kept C snap)
    (hC : ∀ e, C e → C' e) : Kept C' snap := by
  obtain ⟨hfits, es, hdec, hnum, hlen, hcomm⟩ := h
  exact ⟨hfits, es, hdec, hnum, hlen, fun e he => hC e (hcomm e he)⟩

/-- Each field of an encoded entry is shorter than the payload. -/
theorem encoded_bounds (es : List LogEntry) :
    20 * es.length ≤ ((es.map encodeEntry).flatten).length ∧
      ∀ e ∈ es, e.data.length ≤ ((es.map encodeEntry).flatten).length := by
  induction es with
  | nil => exact ⟨le_rfl, fun e he => absurd he List.not_mem_nil⟩
  | cons x es ih =>
    obtain ⟨hcount, hdata⟩ := ih
    have hx : (encodeEntry x).length = 20 + x.data.length := by
      simp [encodeEntry]
      omega
    rw [List.map_cons, List.flatten_cons, List.length_append, hx, List.length_cons]
    refine ⟨by omega, ?_⟩
    intro e he
    rcases List.mem_cons.mp he with rfl | he
    · omega
    · exact (hdata e he).trans (Nat.le_add_left _ _)

/-- The snapshot of a log that has never been compacted. -/
theorem kept_snapshotAt {C : LogEntry → Prop} {v : LogView} {index : ℕ}
    (hzero : v.snapshotIndex = 0) (hcont : v.Contiguous) (hterms : TermsFit v)
    (hlast : index = v.lastIndex) (hindex : index < 2 ^ 64)
    (hdata : (encodeEntries v.entries).length < 2 ^ 32) (hC : ∀ e ∈ v.entries, C e) :
    Kept C (snapshotAt v index) := by
  have hall : (snapshotAt v index).data = encodeEntries v.entries := by
    have hentries := entriesFrom_all hcont
    rw [← hlast] at hentries
    rw [snapshotAt, hentries]
  have hlen : v.lastIndex = v.entries.length := by
    rw [LogView.lastIndex, hzero, Nat.zero_add]
  obtain ⟨hcount, hlong⟩ := encoded_bounds v.entries
  have hpayload : 4 + ((v.entries.map encodeEntry).flatten).length < 2 ^ 32 := by
    rw [encodeEntries, List.length_append, leBytes_length] at hdata
    exact hdata
  refine ⟨⟨hindex, termAt_lt hterms index, by rw [hall]; exact hdata⟩, v.entries, ?_, ?_, ?_, hC⟩
  · rw [hall]
    apply decodeEntries_encodeEntries
    · omega
    · intro e he
      have hle := (hcont.bounds he).2
      have hshort := hlong e he
      exact ⟨by omega, hterms.entries e he, by omega⟩
  · intro k e he
    have := hcont k e he
    omega
  · rw [← hlen, ← hlast]
    rfl

section

variable {S S' : Snapshot → Prop} {n m : Node}

theorem Snapped.mono (h : Snapped S n) (hS : ∀ snap, S snap → S' snap) : Snapped S' n := by
  refine ⟨?_, SnapshotFile.mono h.file hS, ?_⟩
  · intro snap hsnap
    obtain ⟨hold, hle⟩ := h.memory snap hsnap
    exact ⟨hS snap hold, hle⟩
  · intro img himg
    exact SnapshotFile.mono (h.images img himg) hS

theorem Snapped.same (h : Snapped S n) (hm : SameSnapshot n m) : Snapped S m := by
  refine ⟨?_, ?_, ?_⟩
  · rw [hm.memory, hm.point]
    exact h.memory
  · rw [hm.file]
    exact h.file
  · intro img himg
    rcases hm.images img himg with hold | hfile
    · exact h.images img hold
    · rw [hfile]
      exact h.file

def SnappedStage (S : Snapshot → Prop) : Stage → Prop
  | .up n _ => Snapped S n
  | .down img => SnapshotFile S img.snapshotFile

theorem SnappedStage.mono {st : Stage} (h : SnappedStage S st) (hS : ∀ snap, S snap → S' snap) :
    SnappedStage S' st := by
  cases st with
  | up n d => exact Snapped.mono h hS
  | down img => exact SnapshotFile.mono h hS

/-- A leader sends its own snapshot. -/
theorem snapshotFor_of_snapshot {p : NodeId} {upTo : ℕ} {req : InstallSnapshotRequest}
    (h : n.snapshotFor p upTo = some req) : n.snapshot = some (snapshotOf req) := by
  rw [Node.snapshotFor] at h
  split at h
  · obtain ⟨snap, hsnap, rfl⟩ := Option.map_eq_some_iff.mp h
    exact hsnap
  · cases h

variable [Crc32]

theorem appendLog_same (n : Node) (term : ℕ) (data : Bytes) :
    SameSnapshot n (n.appendLog term data).2 := by
  refine ⟨Eq.refl _, Eq.refl _, ?_, ?_⟩
  · rcases appendLog_cases n term data with ⟨_, hview⟩ | ⟨_, hview⟩
    · rw [hview]
      exact Eq.refl _
    · rw [hview]
  · intro img himg
    rcases List.mem_append.mp himg with hold | hnew
    · exact Or.inl hold
    · obtain rfl := List.mem_singleton.mp hnew
      exact Or.inr (Eq.refl _)

theorem truncateLog_same (n : Node) (i : ℕ) : SameSnapshot n (n.truncateLog i) := by
  refine ⟨Eq.refl _, Eq.refl _, ?_, ?_⟩
  · rcases truncateLog_cases n i with hview | ⟨_, _, hview⟩
    · rw [hview]
    · rw [hview]
      exact Eq.refl _
  · intro img himg
    rcases List.mem_append.mp himg with hold | hnew
    · exact Or.inl hold
    · obtain rfl := List.mem_singleton.mp hnew
      exact Or.inr (Eq.refl _)

theorem storeEntries_same (n : Node) (entries : List LogEntry) :
    SameSnapshot n (n.storeEntries entries) := by
  induction entries generalizing n with
  | nil => exact .rfl
  | cons e entries ih =>
    have hstep : SameSnapshot n (n.storeEntry e) := by
      rw [Node.storeEntry]
      split
      · split
        · exact .rfl
        · exact (truncateLog_same n e.index).trans (appendLog_same _ _ _)
      · exact appendLog_same n _ _
    exact hstep.trans (ih _)

theorem onAppendEntries_same (n : Node) (req : AppendEntriesRequest) :
    SameSnapshot n (n.onAppendEntries req).2 := by
  have hacc := SameSnapshot.of_untouched (acceptLeader_untouched n req.term req.leaderId)
  obtain ⟨_, ⟨_, _, hn | hn⟩ | ⟨_, _, hn⟩⟩ := onAppendEntries_cases n req
  · rw [hn]
    exact .rfl
  · rw [hn]
    exact hacc
  · rw [hn]
    have hstored := hacc.trans (storeEntries_same _ req.entries)
    exact ⟨hstored.memory, hstored.file, hstored.point, hstored.images⟩

theorem startWrite_same (n : Node) (data : Bytes) : SameSnapshot n (n.startWrite data).2 := by
  rcases startWrite_node n data with hn | hn
  · rw [hn]
    exact .rfl
  · rw [hn]
    exact appendLog_same n n.ps.currentTerm data

/-- From the new file on, every crash finds it. -/
theorem saved_images (h : Snapped S n) {snap : Snapshot} (hsnap : S snap) (log : RaftLog)
    (i t : ℕ) : ∀ img ∈ (withJournal (n.saveSnapshot snap) log i t).mark.trail,
      SnapshotFile S img.snapshotFile := by
  have hfile := snapshotFile_saved hsnap
  intro img himg
  rcases List.mem_append.mp himg with himg | hlast
  · rcases List.mem_append.mp himg with himg | hinside
    · rcases List.mem_append.mp himg with hold | hsaved
      · exact h.images img hold
      · obtain rfl := List.mem_singleton.mp hsaved
        exact hfile
    · rw [Node.journalTrail] at hinside
      split at hinside
      · cases hinside
      · obtain ⟨dir, _, rfl⟩ := List.mem_map.mp hinside
        exact hfile
  · obtain rfl := List.mem_singleton.mp hlast
    exact hfile

theorem onInstallSnapshot_snapped (h : Snapped S n) {req : InstallSnapshotRequest}
    (hreq : S (snapshotOf req)) : Snapped S (n.onInstallSnapshot req).2 := by
  have hacc := h.same (.of_untouched (acceptLeader_untouched n req.term req.leaderId))
  rw [Node.onInstallSnapshot]
  split
  · exact h
  · dsimp only
    split
    · exact hacc
    · rename_i hi
      set saved := (n.acceptLeader req.term req.leaderId).saveSnapshot
        ⟨req.lastIncludedIndex, req.lastIncludedTerm, req.data⟩ with hsaved
      have hinstall := installLog_cases saved req.lastIncludedIndex req.lastIncludedTerm
      have himages : ∀ img ∈ (saved.installLog req.lastIncludedIndex
          req.lastIncludedTerm).2.trail, SnapshotFile S img.snapshotFile :=
        saved_images hacc hreq _ _ _
      split
      · rename_i e m hm
        obtain rfl := congrArg Prod.snd hm
        refine ⟨?_, snapshotFile_saved hreq, himages⟩
        rcases hinstall with ⟨_, hview⟩ | ⟨hok, _⟩
        · dsimp only
          rw [hview]
          exact hacc.memory
        · rw [hm] at hok
          cases hok
      · rename_i m hm
        obtain rfl := congrArg Prod.snd hm
        refine ⟨?_, snapshotFile_saved hreq, himages⟩
        intro snap hsnap
        cases hsnap
        refine ⟨hreq, ?_⟩
        rcases hinstall with ⟨⟨e, herr⟩, _⟩ | ⟨_, hview⟩
        · rw [hm] at herr
          cases herr
        · dsimp only
          have hnew : ¬ req.lastIncludedIndex ≤ saved.log.snapshotIndex := hi
          rw [hview, if_neg hnew]
          exact le_rfl

theorem compact_refused {log : RaftLog} {i t : ℕ} {e : WalError}
    (h : (log.compact i t).1 = .error e) : (log.compact i t).2.toLogView = log.toLogView := by
  rw [RaftLog.compact] at h ⊢
  split at h
  · cases h
  · rename_i hi
    rw [if_neg hi]
    split at h
    · rfl
    · cases h

theorem takeSnapshot_snapped (h : Snapped S n) (hlow : n.log.snapshotIndex ≤ n.commitIndex)
    (hsnap : S (snapshotAt n.log.toLogView n.commitIndex)) : Snapped S n.takeSnapshot.2 := by
  rw [Node.takeSnapshot]
  dsimp only
  split
  · exact h
  · set t := (n.log.termAt n.commitIndex).getD n.log.snapshotTerm with ht
    have hcompact := compact_cases n.log n.commitIndex t
    have hpoint : (n.log.compact n.commitIndex t).2.snapshotIndex ≤ n.commitIndex := by
      rcases hcompact with hview | ⟨_, hview⟩
      · rw [hview]
        exact hlow
      · rw [hview]
        exact le_rfl
    set saved := n.saveSnapshot ⟨n.commitIndex, t, encodeEntries
      ((n.log.entriesFrom (n.log.snapshotIndex + 1)).filter (fun e => e.index ≤ n.commitIndex))⟩
      with hsaved
    have himages : ∀ img ∈ (saved.compactLog n.commitIndex t).2.trail,
        SnapshotFile S img.snapshotFile := saved_images h hsnap _ _ _
    split
    · rename_i e m hm
      obtain rfl := congrArg Prod.snd hm
      refine ⟨?_, snapshotFile_saved hsnap, himages⟩
      have herr : (n.log.compact n.commitIndex t).1 = .error e := congrArg Prod.fst hm
      have hview := compact_refused herr
      intro snap heq
      obtain ⟨hold, hle⟩ := h.memory snap heq
      refine ⟨hold, ?_⟩
      rw [← hview] at hle
      exact hle
    · rename_i m hm
      obtain rfl := congrArg Prod.snd hm
      refine ⟨?_, snapshotFile_saved hsnap, himages⟩
      intro snap heq
      cases heq
      exact ⟨hsnap, hpoint⟩

theorem commitWrite_snapped (h : Snapped S n) {index acks : ℕ}
    (hlow : n.log.snapshotIndex ≤ index)
    (hsnap : n.quorum ≤ acks → n.snapshotTrigger ≤ n.entriesSinceSnapshot + 1 →
      S (snapshotAt n.log.toLogView index)) : Snapped S (n.commitWrite index acks).2 := by
  rw [Node.commitWrite]
  split
  · exact h
  · rename_i hquorum
    have hcounted : Snapped S { n with
        commitIndex := index
        entriesSinceSnapshot := n.entriesSinceSnapshot + 1 } := ⟨h.memory, h.file, h.images⟩
    dsimp only
    split
    · rename_i htrigger
      exact takeSnapshot_snapped hcounted hlow (hsnap (Nat.not_lt.mp hquorum) htrigger)
    · exact hcounted

/-- The write has a quorum and is the one after which the node takes a snapshot. -/
structure TakesSnapshot (n : Node) (index : ℕ)
    (appends : List (NodeId × Option AppendEntriesResponse))
    (snapshots : List (NodeId × Option InstallSnapshotResponse)) : Prop where
  quorum : n.quorum ≤ (n.begin.finishReplication index appends snapshots).1
  trigger : n.snapshotTrigger ≤ n.entriesSinceSnapshot + 1

/-- The only snapshots that come in are the ones it installs and the ones it takes. -/
theorem act_snapped (h : Snapped S n) {a : Action} {d d' : Doing} (hturn : Turn n d a d')
    (habove : AboveWrite n d)
    (hinstall : ∀ req, a = .installSnapshot req → S (snapshotOf req))
    (hwrite : ∀ index data appends snapshots, d = .writing index data →
      a = .finishWrite index appends snapshots → TakesSnapshot n index appends snapshots →
        S (snapshotAt n.log.toLogView index)) : Snapped S (n.act a) := by
  have hbegin := h.same (.of_untouched (begin_untouched n))
  by_cases ha : TouchesLog a
  · cases hturn with
    | appendEntries req => exact hbegin.same (onAppendEntries_same _ req)
    | installSnapshot req => exact onInstallSnapshot_snapped hbegin (hinstall req rfl)
    | writeRefused hwrite => exact hbegin.same (startWrite_same _ _)
    | writeStarted hwrite => exact hbegin.same (startWrite_same _ _)
    | @finishWrite index data appends snapshots happends hsnapshots =>
      have hrep := finishReplication_untouched n.begin index appends snapshots
      rw [Node.act, finishWrite_eq]
      apply commitWrite_snapped (hbegin.same (.of_untouched hrep))
      · rw [hrep.log]
        exact Nat.le_of_lt (habove index data rfl)
      · intro hquorum htrigger
        rw [finishReplication_quorum] at hquorum
        rw [hrep.snapshotTrigger, hrep.entriesSinceSnapshot] at htrigger
        rw [hrep.log]
        exact hwrite index data appends snapshots rfl rfl ⟨hquorum, htrigger⟩
    | _ => exact ha.elim
  · exact h.same (.of_untouched (act_untouched ha))

/-- `s'` comes after `s` in a run. -/
def Later (c : Cluster) (ok : Conditions) : State → State → Prop :=
  Relation.ReflTransGen (fun s s' => ∃ e, Step c ok s e s')

/-- Before `s` a leader had the acks of a quorum for a write, with the entry in its log at
the index of the write or below. -/
inductive Committed (c : Cluster) (ok : Conditions) (s : State) (e : LogEntry) : Prop where
  | intro {es : List Event} {s₀ : State} {id : NodeId} {n : Node} {index : ℕ}
      {appends : List (NodeId × Option AppendEntriesResponse)}
      {snapshots : List (NodeId × Option InstallSnapshotResponse)} {o : Outcome}
      (run : ClusterRun c ok es s₀) (later : Later c ok s₀ s) (hid : id ∈ c.members)
      (hact : Act s₀ id n (.finishWrite index appends snapshots) o)
      (hquorum : n.quorum ≤ (n.begin.finishReplication index appends snapshots).1)
      (hmem : e ∈ n.log.entries) (hle : e.index ≤ index)

theorem Committed.mono {c : Cluster} {ok : Conditions} {s s' : State} {e : LogEntry}
    {ev : Option Event} (h : Committed c ok s e) (hstep : Step c ok s ev s') :
    Committed c ok s' e := by
  obtain ⟨run, later, hid, hact, hquorum, hmem, hle⟩ := h
  exact ⟨run, later.tail ⟨ev, hstep⟩, hid, hact, hquorum, hmem, hle⟩

/-- A node takes its snapshot while there is none in its log, and the payload fits the
length fields. A process that starts finds the entries of its log in order. -/
def firstSnapshots : Conditions where
  action n a := Room n a ∧ ∀ index appends snapshots, a = .finishWrite index appends snapshots →
    TakesSnapshot n index appends snapshots →
      n.log.snapshotIndex = 0 ∧ (encodeEntries n.log.entries).length < 2 ^ 32
  restart img := ∀ log, RaftLog.open walConfig img.wal = .ok log → log.toLogView.Contiguous

/-- The log of a node that is up is in order, and a node that waits for a write waits for
its last entry. -/
def OrderedStage : Stage → Prop
  | .up n d => n.log.toLogView.Contiguous ∧
      ∀ index data, d = .writing index data → index = n.log.lastIndex
  | .down _ => True

theorem life_ordered {id : NodeId} {peers : List NodeId} {st : Stage}
    (life : NodeLife (lifeConditions firstSnapshots) id peers st) : OrderedStage st := by
  have hidle : ∀ {n : Node}, n.log.toLogView.Contiguous → OrderedStage (.up n .idle) := by
    intro n hn
    exact ⟨hn, fun _ _ hd => by cases hd⟩
  induction life with
  | new hstart =>
    apply hidle
    rw [(start_empty hstart).1]
    exact .empty
  | act life hturn hb hok ih =>
    exact ⟨act_contiguous ih.1 _, fun _ _ hd => turn_writing hturn hd⟩
  | crash life hturn hb hok himg ih => trivial
  | restart life hok hstart ih =>
    obtain ⟨log, hopen, hn⟩ := start_cases hstart
    apply hidle
    rw [hn.log]
    exact hok.2 log hopen

theorem life_recoverable {id : NodeId} {peers : List NodeId} {st : Stage}
    (life : NodeLife (lifeConditions firstSnapshots) id peers st) : SoundStage False st := by
  apply life_sound ?_ ?_ False.elim life
  · intro n a hok
    exact hok.1
  · intro img file hok
    exact hok.1

/-- A process that starts loads the snapshot of the file. -/
theorem start_snapped {C : LogEntry → Prop} {img : Image}
    (h : SnapshotFile (Kept C) img.snapshotFile)
    (hrec : Recoverable False img) {id : NodeId} {peers : List NodeId}
    (hstart : Node.start id peers img.stateFile img.wal img.snapshotFile = .ok n) :
    Snapped (Kept C) n := by
  obtain ⟨log, hopen, hn⟩ := start_cases hstart
  obtain ⟨hsound, _⟩ := start_sound hrec hstart
  refine ⟨?_, ?_, ?_⟩
  · intro snap hsnap
    rw [hn.snapshot] at hsnap
    have hcovers := hsound.covered
    rw [hn.snapshotFile] at hcovers
    cases hfile : img.snapshotFile with
    | none =>
      rw [hfile] at hsnap
      cases hsnap
    | some bytes =>
      obtain ⟨s, rfl, hs⟩ := h bytes hfile
      obtain ⟨data, hload, hdata⟩ := load_fileBytes hs.1.index hs.1.term
      rw [hdata hs.1.data] at hload
      rw [hfile, hload] at hsnap
      cases hsnap
      refine ⟨hs, ?_⟩
      by_cases hpos : 0 < n.log.snapshotIndex
      · obtain ⟨s', hload', hle, _⟩ := hcovers hpos
        rw [hfile, hload] at hload'
        cases hload'
        exact hle
      · omega
  · rw [hn.snapshotFile]
    exact h
  · rw [hn.trail]
    simp

theorem act_calls {s : State} {id : NodeId} {a : Action} {o : Outcome} (hact : Act s id n a o)
    (h : Snapped S n) {call : Call} (hcall : call ∈ o.calls) {req : InstallSnapshotRequest}
    (hreq : call.request = .installSnapshot req) : S (snapshotOf req) := by
  cases hact with
  | @writeStarted data index hup hwrite =>
    rcases List.mem_append.mp hcall with hcall | hcall
    · obtain ⟨p, _, rfl⟩ := List.mem_map.mp hcall
      cases hreq
    · obtain ⟨p, hp, rfl⟩ := List.mem_map.mp hcall
      cases hreq
      obtain ⟨q, _, hq⟩ := List.mem_filterMap.mp hp
      obtain ⟨req, hfor, rfl⟩ := Option.map_eq_some_iff.mp hq
      have hm := (h.same (.of_untouched (begin_untouched n))).same (startWrite_same n.begin data)
      exact (hm.memory _ (snapshotFor_of_snapshot hfor)).1
  | startElection hup hrole =>
    obtain ⟨p, _, rfl⟩ := List.mem_map.mp hcall
    cases hreq
  | sendHeartbeats hup hrole =>
    obtain ⟨p, _, rfl⟩ := List.mem_map.mp hcall
    cases hreq
  | _ => cases hcall

/-- Every snapshot of the state, at a node, in its files or on the way, holds what it
replaces. -/
structure AllKept (c : Cluster) (s : State) : Prop where
  stages : ∀ id ∈ c.members,
    SnappedStage (Kept (Committed c firstSnapshots s)) (stage (s.processes id))
  calls : ∀ call ∈ s.calls, ∀ req, call.request = .installSnapshot req →
    Kept (Committed c firstSnapshots s) (snapshotOf req)

theorem act_kept {c : Cluster} {es : List Event} {s : State} {id : NodeId} {a : Action}
    {o : Outcome} (run : ClusterRun c firstSnapshots es s) (h : AllKept c s)
    (hid : id ∈ c.members) (hact : Act s id n a o) (hok : firstSnapshots.action n a) :
    Snapped (Kept (Committed c firstSnapshots s)) n ∧
      Snapped (Kept (Committed c firstSnapshots s)) (n.act a) := by
  obtain ⟨d, hstage, hturn⟩ := turn_of_act hact
  have hlife := life_of_run run hid
  have hordered := life_ordered hlife
  have hsound := life_recoverable hlife
  have hnow := h.stages id hid
  rw [hstage] at hordered hsound hnow
  obtain ⟨hcont, hwriting⟩ := hordered
  refine ⟨hnow, act_snapped hnow hturn hsound.2 ?_ ?_⟩
  · rintro req rfl
    cases hact with
    | installSnapshot hup hcall => exact h.calls _ (List.mem_of_getElem? hcall) req rfl
  · rintro index data appends snapshots rfl rfl htakes
    obtain ⟨hroom, hfirst⟩ := hok
    obtain ⟨hzero, hdata⟩ := hfirst index appends snapshots rfl htakes
    have hlast := hwriting index data rfl
    apply kept_snapshotAt hzero hcont hsound.1.terms hlast hroom.2 hdata
    intro e he
    apply Committed.intro run .refl hid hact htakes.quorum he
    rw [hlast]
    exact (hcont.bounds he).2

theorem step_kept {c : Cluster} {es : List Event} {s s' : State} {ev : Option Event}
    (run : ClusterRun c firstSnapshots es s) (h : AllKept c s)
    (hstep : Step c firstSnapshots s ev s') : AllKept c s' := by
  have hmono : ∀ snap, Kept (Committed c firstSnapshots s) snap →
      Kept (Committed c firstSnapshots s') snap :=
    fun snap hsnap => hsnap.mono (fun e he => he.mono hstep)
  cases hstep with
  | @act i n a o hi hact hb hok =>
    obtain ⟨hnow, hnext⟩ := act_kept run h hi hact hok
    constructor
    · intro id hid
      apply SnappedStage.mono ?_ hmono
      by_cases hsame : id = i
      · rw [hsame, State.after_self, stage_up]
        exact hnext
      · rw [State.after_of_ne _ _ _ hsame]
        exact h.stages id hid
    · intro call hcall req hreq
      rcases List.mem_append.mp hcall with hold | hnew
      · exact hmono _ (h.calls call hold req hreq)
      · exact hmono _ (act_calls hact hnow hnew hreq)
  | @crash i n a o img hi hact hb hok himg =>
    obtain ⟨_, hnext⟩ := act_kept run h hi hact hok
    refine ⟨?_, fun call hcall req hreq => hmono _ (h.calls call hcall req hreq)⟩
    intro id hid
    apply SnappedStage.mono ?_ hmono
    by_cases hsame : id = i
    · rw [hsame, State.set_self]
      exact hnext.images img himg
    · rw [State.set_of_ne _ _ hsame]
      exact h.stages id hid
  | @restart i img n hi hdown hok hstart =>
    refine ⟨?_, fun call hcall req hreq => hmono _ (h.calls call hcall req hreq)⟩
    intro id hid
    apply SnappedStage.mono ?_ hmono
    by_cases hsame : id = i
    · have hfiles := h.stages i hi
      have hrec := life_recoverable (life_of_run run hi)
      rw [hdown] at hfiles hrec
      rw [hsame, State.set_self]
      exact start_snapped hfiles hrec hstart
    · rw [State.set_of_ne _ _ hsame]
      exact h.stages id hid

theorem run_kept {c : Cluster} {es : List Event} {s : State}
    (run : ClusterRun c firstSnapshots es s) : AllKept c s := by
  induction run with
  | start h =>
    constructor
    · intro id hid
      obtain ⟨n, hstart, hup⟩ := h.processes id hid
      obtain ⟨log, hopen, hn⟩ := start_cases hstart
      rw [hup]
      refine ⟨?_, ?_, ?_⟩
      · intro snap hsnap
        rw [hn.snapshot] at hsnap
        cases hsnap
      · rw [hn.snapshotFile]
        intro bytes hbytes
        cases hbytes
      · rw [hn.trail]
        simp
    · rw [h.calls]
      simp
  | step run hstep ih => exact step_kept run ih hstep

end

theorem grow_snapshotIndex (v : LogView) (data : Bytes) (k : ℕ) :
    (grow v data k).snapshotIndex = v.snapshotIndex := by
  induction k with
  | zero => rfl
  | succ k ih => exact ih

theorem grow_encoded (v : LogView) (data : Bytes) (k : ℕ) :
    (((grow v data k).entries.map encodeEntry).flatten).length =
      ((v.entries.map encodeEntry).flatten).length + (20 + data.length) * k := by
  induction k with
  | zero => rfl
  | succ k ih =>
    rw [grow, LogView.push, List.map_append, List.flatten_append, List.length_append, ih]
    simp [encodeEntry]
    ring

theorem grow_entries (v : LogView) (data : Bytes) (k : ℕ) :
    (grow v data k).entries =
      v.entries ++ (List.range k).map (fun i => ⟨1, v.lastIndex + i + 1, data⟩) := by
  induction k with
  | zero => simp [grow]
  | succ k ih =>
    rw [grow, LogView.push, ih, grow_lastIndex, List.range_succ, List.map_append,
      ← List.append_assoc]
    rfl

end RaftNodeSnapshots
