import DistributedWal.RaftNodeJournal
import DistributedWal.ReplicatedLogArithmetic

/-! # The index arithmetic of a node that takes requests

`last_included_index` comes unchecked from a peer, is written to the journal and enters the
sums of the log. They stay in range while the requests leave room above the last index, and
a restart room for the records it replays.
-/
namespace RaftNodeArithmetic

open LittleEndianCodec WalEntry WalSegment WalEngine WalContents ReplicatedLog
open ReplicatedLogContents ReplicatedLogArithmetic CheckedArithmetic LabelledRuns
open ReplicatedLogRecovery (payloads payloads_append)
open RaftPersistentState RaftSnapshot RaftNode RaftNodeHandlers RaftNodeLogs RaftNodeVotes
open RaftNodeMoves RaftNodeAppends RaftNodeJournal

/-- What is sent to the node, and the restarts in between. -/
inductive Event where
  | appendEntries (req : AppendEntriesRequest)
  | installSnapshot (req : InstallSnapshotRequest)
  | clientRead (fromIndex : ℕ)
  | restart

/-- The fields are `u64` values. -/
def FieldsFit : Event → Prop
  | .appendEntries req => req.term < 2 ^ 64 ∧ req.prevLogIndex < 2 ^ 64 ∧
      req.prevLogTerm < 2 ^ 64 ∧ req.leaderCommit < 2 ^ 64 ∧
      ∀ e ∈ req.entries, e.index < 2 ^ 64 ∧ e.term < 2 ^ 64
  | .installSnapshot req => req.term < 2 ^ 64 ∧ req.lastIncludedIndex < 2 ^ 64 ∧
      req.lastIncludedTerm < 2 ^ 64
  | .clientRead fromIndex => fromIndex < 2 ^ 64
  | .restart => True

/-- The requests that pass the checks of the handlers leave room above the last index and
find sequence numbers left in the WAL, a restart has room for as many entries as records
were written. -/
def Roomy (n : Node) : Event → Prop
  | .appendEntries req => Passes n req →
      n.log.lastIndex + req.entries.length + 1 < 2 ^ 64 ∧
        n.log.wal.nextSequence + 2 * req.entries.length < 2 ^ 64
  | .installSnapshot req =>
      n.ps.currentTerm ≤ req.term → n.log.snapshotIndex < req.lastIncludedIndex →
        req.lastIncludedIndex +
            (n.log.entries.filter (fun e => e.index > req.lastIncludedIndex)).length + 1 < 2 ^ 64 ∧
          n.log.wal.nextSequence < 2 ^ 64
  | .clientRead _ => True
  | .restart => n.log.snapshotIndex + n.log.wal.nextSequence < 2 ^ 64

def checkPreviousChecked (n : Node) (req : AppendEntriesRequest) :
    Option (Option AppendEntriesResponse) :=
  if req.prevLogIndex > 0 then do
    match ← termAtChecked n.log.toLogView req.prevLogIndex with
    | none => do
      let last ← lastIndexChecked n.log.toLogView
      let hint ← checkedAdd 64 last 1
      some (some (n.aeReject hint 0))
    | some t =>
      if t ≠ req.prevLogTerm then
        some (some (n.aeReject ((n.log.firstIndexOfTerm t).getD req.prevLogIndex) t))
      else some none
  else some none

section

variable [Crc32]

def appendLogChecked (n : Node) (term : ℕ) (data : Bytes) :
    Option (Except WalError ℕ × Node) := do
  let (result, log) ← appendChecked n.log term data
  some (result, { n with log := log }.mark)

def truncateLogChecked (n : Node) (fromIndex : ℕ) : Option Node := do
  let (_, log) ← truncateFromChecked n.log fromIndex
  some { n with log := log }.mark

def storeEntryChecked (n : Node) (e : LogEntry) : Option Node := do
  match ← termAtChecked n.log.toLogView e.index with
  | some t =>
    if t = e.term then some n
    else do
      let n ← truncateLogChecked n e.index
      let (_, n) ← appendLogChecked n e.term e.data
      some n
  | none => do
    let (_, n) ← appendLogChecked n e.term e.data
    some n

def storeEntriesChecked (n : Node) (entries : List LogEntry) : Option Node :=
  entries.foldlM storeEntryChecked n

def onAppendEntriesChecked (n : Node) (req : AppendEntriesRequest) :
    Option (AppendEntriesResponse × Node) :=
  if req.term < n.ps.currentTerm then some (n.aeReject 0 0, n)
  else do
    let n := n.acceptLeader req.term req.leaderId
    match ← checkPreviousChecked n req with
    | some rejection => some (rejection, n)
    | none => do
      let n ← storeEntriesChecked n req.entries
      let n ←
        if req.leaderCommit > n.commitIndex then do
          let last ← lastIndexChecked n.log.toLogView
          some { n with commitIndex := min req.leaderCommit last }
        else some n
      some (⟨n.ps.currentTerm, true, 0, 0⟩, n)

def Handles (n : Node) : Event → Node → Prop
  | .appendEntries req, n' => n' = n.act (.appendEntries req)
  | .installSnapshot req, n' => n' = n.act (.installSnapshot req)
  | .clientRead fromIndex, n' => n' = n.act (.clientRead fromIndex)
  | .restart, n' =>
      Node.start n.id n.peers n.ps.file n.log.wal.dir n.snapshotFile = .ok n'

/-- Every function of the log, whatever it is called with. `install_snapshot` computes no
index. -/
structure InRange (log : RaftLog) : Prop where
  lastIndex : lastIndexChecked log.toLogView = some log.lastIndex
  termAt : ∀ index, termAtChecked log.toLogView index = some (log.termAt index)
  entriesFrom : ∀ fromIndex,
    entriesFromChecked log.toLogView fromIndex = some (log.entriesFrom fromIndex)
  append : ∀ term data, appendChecked log term data = some (log.append term data)
  truncateFrom : ∀ fromIndex,
    truncateFromChecked log fromIndex = some (log.truncateFrom fromIndex)
  compact : ∀ lastIncludedIndex lastIncludedTerm,
    compactChecked log lastIncludedIndex lastIncludedTerm =
      some (log.compact lastIncludedIndex lastIncludedTerm)
  reopen : openChecked walConfig log.wal.dir = some (RaftLog.open walConfig log.wal.dir)

/-- What the steps keep: the last index has room above it, and so has every snapshot point
in the journal. -/
structure Fits (log : RaftLog) (c : Contents) : Prop where
  stores : Stores log.wal c
  config : log.wal.config = walConfig
  tells : Tells c log.toLogView
  points : PointsFit (payloads c.entries)
  last : log.lastIndex + 1 < 2 ^ 64

end

theorem points_grown {c c' : Contents} (h : PointsFit (payloads c.entries)) {s : ℕ}
    {record : Bytes} (hrecord : snapshotPoint record = none)
    (heq : c'.entries = c.entries ++ [⟨s, record⟩]) : PointsFit (payloads c'.entries) := by
  rw [heq, payloads_append]
  apply h.snoc
  intro i hi
  rw [hrecord] at hi
  cases hi

section

variable [Crc32] {log : RaftLog} {c : Contents} {n : Node}

theorem Fits.inRange (h : Fits log c) : InRange log := by
  have hlast := Nat.lt_of_succ_lt h.last
  have hpoint : log.snapshotIndex + 1 < 2 ^ 64 :=
    Nat.lt_of_le_of_lt (Nat.succ_le_succ (Nat.le_add_right ..)) h.last
  have hreopen := openChecked_eq h.stores h.points
  rw [h.config] at hreopen
  exact ⟨lastIndexChecked_eq hlast, termAtChecked_eq _, entriesFromChecked_eq hpoint hlast,
    appendChecked_eq h.last, truncateFromChecked_eq hlast, compactChecked_eq hlast, hreopen⟩

theorem append_fits (h : Fits log c) {term : ℕ} (data : Bytes)
    (hseq : log.wal.nextSequence < 2 ^ 64) (hlast : log.lastIndex + 2 < 2 ^ 64)
    (hterm : term < 2 ^ 64) : (∃ c', Fits (log.append term data).2 c') ∧
      (log.append term data).2.wal.nextSequence ≤ log.wal.nextSequence + 1 ∧
      (log.append term data).2.lastIndex ≤ log.lastIndex + 1 := by
  set record := encodeAppend ⟨term, log.lastIndex + 1, data⟩ with hrecord
  by_cases hfit : headerSize + record.length ≤ log.wal.config.maxSegmentBytes
  · have hshort : record.length < 2 ^ 32 := by
      rw [h.config] at hfit
      have : headerSize + record.length ≤ 64 * 1024 * 1024 := hfit
      omega
    obtain ⟨w, happ, hst, hm, hn⟩ := append_accepted h.stores record hshort hseq hfit
    have hpush : (log.toLogView.push term data).lastIndex = log.lastIndex + 1 :=
      LogView.push_lastIndex ..
    simp only [RaftLog.append, ← hrecord, happ]
    refine ⟨⟨_, hst, hm.config.trans h.config, ?_, ?_, ?_⟩, Nat.le_of_eq hn, Nat.le_of_eq hpush⟩
    · exact h.tells.append h.last hterm (grown_entries ..)
    · exact points_grown h.points (snapshotPoint_append _) (grown_entries ..)
    · exact (Nat.succ_le_succ (Nat.le_of_eq hpush)).trans_lt hlast
  · obtain ⟨w, happ, hst, hm, hn⟩ := append_rejected h.stores record hfit
    have hsame := rotated_entries c log.wal.active.id
    simp only [RaftLog.append, ← hrecord, happ]
    refine ⟨⟨_, hst, hm.config.trans h.config, h.tells.same hsame, ?_, h.last⟩,
      Nat.le_succ_of_le (Nat.le_of_eq hn), Nat.le_succ _⟩
    rw [hsame]
    exact h.points

theorem truncateFrom_fits (h : Fits log c) (i : ℕ) (hseq : log.wal.nextSequence < 2 ^ 64) :
    (∃ c', Fits (log.truncateFrom i).2 c') ∧
      (log.truncateFrom i).2.wal.nextSequence ≤ log.wal.nextSequence + 1 ∧
      (log.truncateFrom i).2.lastIndex ≤ log.lastIndex := by
  by_cases hout : i ≤ log.snapshotIndex ∨ i > log.lastIndex
  · rw [truncateFrom_out log hout]
    exact ⟨⟨c, h⟩, Nat.le_succ _, le_rfl⟩
  · obtain ⟨w, happ, hst, hm, hn⟩ := append_accepted h.stores (encodeTruncate i)
      (by rw [encodeTruncate_length]; decide) hseq
      (by rw [encodeTruncate_length, h.config]; decide)
    have hcut : (log.toLogView.cut i).lastIndex ≤ log.lastIndex := LogView.cut_lastIndex_le ..
    have hlast := h.last
    obtain ⟨hlow, hhigh⟩ := not_or.mp hout
    simp only [RaftLog.truncateFrom, if_neg hout, happ]
    refine ⟨⟨_, hst, hm.config.trans h.config, ?_, ?_, ?_⟩, Nat.le_of_eq hn, hcut⟩
    · exact h.tells.truncate (Nat.not_le.mp hlow) (by omega) (grown_entries ..)
    · exact points_grown h.points (snapshotPoint_truncate i) (grown_entries ..)
    · exact (Nat.succ_le_succ hcut).trans_lt h.last

/-- A new snapshot point, with the entries above it. -/
theorem installSnapshot_fits (h : Fits log c) {i t : ℕ} (hseq : log.wal.nextSequence < 2 ^ 64)
    (hlow : log.snapshotIndex < i)
    (hroom : i + (log.entries.filter (fun e => e.index > i)).length + 1 < 2 ^ 64)
    (ht : t < 2 ^ 64) : ∃ c', Fits (log.installSnapshot i t).2 c' := by
  have hi : i < 2 ^ 64 := by omega
  obtain ⟨w, hj, hst, hcfg, _⟩ := journalSnapshot_spec (i := i) (t := t) h.stores hseq
    (by rw [h.config]; decide)
  simp only [RaftLog.installSnapshot, if_neg (Nat.not_le.mpr hlow), hj]
  refine ⟨_, hst, hcfg.trans h.config, ?_, ?_, hroom⟩
  · exact tells_snapshot hi ht (Nat.zero_lt_of_lt hlow) rfl rfl rfl
  · have hentries : (journalled log.wal c i t).entries =
        survivingRecords log.wal c ++ [⟨log.wal.nextSequence, encodeSnapshot i t⟩] := rfl
    have hkept : PointsFit (payloads (survivingRecords log.wal c)) := by
      intro p hp
      apply h.points p
      rw [← lost_surviving log.wal c, payloads_append]
      exact List.mem_append_right _ hp
    rw [hentries, payloads_append]
    apply hkept.snoc
    intro j hj
    rw [snapshotPoint_snapshot hi] at hj
    cases hj
    omega

/-- As many entries come back as records are replayed, at most. -/
theorem start_fits (h : Fits n.log c)
    (hroom : n.log.snapshotIndex + n.log.wal.nextSequence < 2 ^ 64) {n' : Node}
    (hstart : Node.start n.id n.peers n.ps.file n.log.wal.dir n.snapshotFile = .ok n') :
    ∃ c', Fits n'.log c' := by
  obtain ⟨hst, hcfg, hview, _⟩ := start_stores h.stores h.config hstart
  have hview : n'.log.toLogView = replayed c := hview
  have hindex : n'.log.snapshotIndex = n.log.snapshotIndex := by
    rw [hview]
    exact h.tells.index
  have hcount : n'.log.entries.length ≤ c.entries.length := by
    have hlen := replay_length LogView.empty (payloads c.entries)
    rw [hview, replayed]
    simpa [LogView.empty, payloads] using hlen
  have hfew : c.entries.length < n.log.wal.nextSequence := by
    obtain ⟨first, hfirst, hnext, _⟩ := h.stores.numbered
    omega
  have hcont : (replayed c).snapshotIndex = 0 → replayed c = n.log.toLogView ∧
      n.log.toLogView.Contiguous := fun hz => h.tells.whole (h.tells.index ▸ hz)
  refine ⟨c, hst, hcfg, ⟨?_, ?_, ?_⟩, h.points, ?_⟩
  · rw [hview]
  · rw [hview]
  · intro hz
    rw [hview] at hz
    obtain ⟨hwhole, hc⟩ := hcont hz
    rw [hview, hwhole]
    exact ⟨rfl, hc⟩
  · rw [LogView.lastIndex, hindex]
    omega

theorem appendLogChecked_eq (h : n.log.lastIndex + 1 < 2 ^ 64) (term : ℕ) (data : Bytes) :
    appendLogChecked n term data = some (n.appendLog term data) := by
  rw [appendLogChecked, appendChecked_eq h]
  rfl

theorem truncateLogChecked_eq (h : n.log.lastIndex < 2 ^ 64) (i : ℕ) :
    truncateLogChecked n i = some (n.truncateLog i) := by
  rw [truncateLogChecked, truncateFromChecked_eq h]
  rfl

omit [Crc32] in
theorem checkPreviousChecked_eq (h : n.log.lastIndex + 1 < 2 ^ 64) (req : AppendEntriesRequest) :
    checkPreviousChecked n req = some (n.checkPrevious req) := by
  have hhint : checkedAdd 64 n.log.lastIndex 1 = some (n.log.lastIndex + 1) := checkedAdd_fits h
  rw [checkPreviousChecked, Node.checkPrevious]
  by_cases hpos : req.prevLogIndex > 0
  · rw [if_pos hpos, if_pos hpos, termAtChecked_eq]
    simp only [Option.bind_eq_bind, Option.bind_some]
    cases n.log.termAt req.prevLogIndex with
    | none =>
      rw [lastIndexChecked_eq (Nat.lt_of_succ_lt h)]
      simp only [Option.bind_some, hhint]
    | some t =>
      dsimp only
      split <;> rfl
  · rw [if_neg hpos, if_neg hpos]

/-- What is left of the request has room for its entries and their records. -/
structure RoomFor (entries : List LogEntry) (n : Node) : Prop where
  fits : ∃ c, Fits n.log c
  last : n.log.lastIndex + entries.length + 1 < 2 ^ 64
  sequence : n.log.wal.nextSequence + 2 * entries.length < 2 ^ 64
  terms : ∀ e ∈ entries, e.term < 2 ^ 64

theorem storeEntry_inRange {e : LogEntry} {entries : List LogEntry}
    (h : RoomFor (e :: entries) n) :
    storeEntryChecked n e = some (n.storeEntry e) ∧ RoomFor entries (n.storeEntry e) := by
  obtain ⟨⟨c, hfits⟩, hlast, hseq, hterms⟩ := h
  rw [List.length_cons] at hlast hseq
  have hterm := hterms e (List.mem_cons_self ..)
  have hrest : ∀ f ∈ entries, f.term < 2 ^ 64 := fun f hf => hterms f (List.mem_cons_of_mem e hf)
  -- the entry goes to the end of a log that is not longer
  have happend : ∀ m : Node, (∃ c, Fits m.log c) → m.log.lastIndex ≤ n.log.lastIndex →
      m.log.wal.nextSequence ≤ n.log.wal.nextSequence + 1 →
      appendLogChecked m e.term e.data = some (m.appendLog e.term e.data) ∧
        RoomFor entries (m.appendLog e.term e.data).2 := by
    rintro m ⟨d, hm⟩ hmlast hmseq
    obtain ⟨hfits', hseq', hlast'⟩ := append_fits hm e.data (by omega) (by omega) hterm
    have hlog : (m.appendLog e.term e.data).2.log = (m.log.append e.term e.data).2 := rfl
    refine ⟨appendLogChecked_eq hm.last _ _, hlog ▸ hfits', ?_, ?_, hrest⟩
    · rw [hlog]
      omega
    · rw [hlog]
      omega
  rw [storeEntryChecked, Node.storeEntry, termAtChecked_eq]
  simp only [Option.bind_eq_bind, Option.bind_some]
  cases n.log.termAt e.index with
  | none =>
    obtain ⟨heq, hroom⟩ := happend n ⟨c, hfits⟩ le_rfl (Nat.le_succ _)
    dsimp only
    rw [heq]
    exact ⟨rfl, hroom⟩
  | some t =>
    dsimp only
    by_cases hheld : t = e.term
    · rw [if_pos hheld, if_pos hheld]
      exact ⟨rfl, ⟨c, hfits⟩, by omega, by omega, hrest⟩
    · obtain ⟨hcut, hcutseq, hcutlast⟩ := truncateFrom_fits hfits e.index (by omega)
      obtain ⟨heq, hroom⟩ := happend (n.truncateLog e.index) hcut hcutlast hcutseq
      rw [if_neg hheld, if_neg hheld, truncateLogChecked_eq (Nat.lt_of_succ_lt hfits.last)]
      refine ⟨?_, hroom⟩
      simp only [Option.bind_some, heq]

theorem storeEntries_inRange {entries : List LogEntry} (h : RoomFor entries n) :
    storeEntriesChecked n entries = some (n.storeEntries entries) ∧
      RoomFor [] (n.storeEntries entries) :=
  foldlM_fits (I := RoomFor) (fun _ _ _ h => storeEntry_inRange h) h

/-- Taking over the term and the leader leaves the log alone. -/
theorem acceptLeader_fits (h : Fits n.log c) (term : ℕ) (leader : NodeId) :
    Fits (n.acceptLeader term leader).log c :=
  (acceptLeader_log n term leader).1 ▸ h

theorem roomFor_accepted (h : Fits n.log c) {req : AppendEntriesRequest} (hpass : Passes n req)
    (hfields : FieldsFit (.appendEntries req)) (hroom : Roomy n (.appendEntries req)) :
    RoomFor req.entries (n.acceptLeader req.term req.leaderId) := by
  have hlog := (acceptLeader_log n req.term req.leaderId).1
  obtain ⟨hlast, hseq⟩ := hroom hpass
  refine ⟨⟨c, acceptLeader_fits h ..⟩, ?_, ?_, fun e he => (hfields.2.2.2.2 e he).2⟩
  · rw [hlog]
    exact hlast
  · rw [hlog]
    exact hseq

theorem onAppendEntries_inRange (h : Fits n.log c) {req : AppendEntriesRequest}
    (hfields : FieldsFit (.appendEntries req)) (hroom : Roomy n (.appendEntries req)) :
    onAppendEntriesChecked n req = some (n.onAppendEntries req) := by
  rw [onAppendEntriesChecked, Node.onAppendEntries]
  by_cases hstale : req.term < n.ps.currentTerm
  · rw [if_pos hstale, if_pos hstale]
  · rw [if_neg hstale, if_neg hstale]
    have hacc := acceptLeader_fits h req.term req.leaderId
    dsimp only
    rw [checkPreviousChecked_eq hacc.last]
    simp only [Option.bind_eq_bind, Option.bind_some]
    cases hprev : (n.acceptLeader req.term req.leaderId).checkPrevious req with
    | some rejection => rfl
    | none =>
      have hthere := (checkPrevious_iff _ req).mp hprev
      rw [(acceptLeader_log n req.term req.leaderId).1] at hthere
      obtain ⟨hstore, ⟨d, hd⟩, _⟩ :=
        storeEntries_inRange (roomFor_accepted h ⟨Nat.not_lt.mp hstale, hthere⟩ hfields hroom)
      dsimp only
      rw [hstore]
      simp only [Option.bind_some, lastIndexChecked_eq (Nat.lt_of_succ_lt hd.last)]
      split <;> rfl

theorem onAppendEntries_fits (h : Fits n.log c) {req : AppendEntriesRequest}
    (hfields : FieldsFit (.appendEntries req)) (hroom : Roomy n (.appendEntries req)) :
    ∃ c', Fits (n.onAppendEntries req).2.log c' := by
  obtain ⟨_, ⟨_, _, hn | hn⟩ | ⟨hpass, _, hn⟩⟩ := onAppendEntries_cases n req
  · rw [hn]
    exact ⟨c, h⟩
  · rw [hn]
    exact ⟨c, acceptLeader_fits h ..⟩
  · rw [hn]
    exact (storeEntries_inRange (roomFor_accepted h hpass hfields hroom)).2.fits

theorem onInstallSnapshot_fits (h : Fits n.log c) {req : InstallSnapshotRequest}
    (hfields : FieldsFit (.installSnapshot req)) (hroom : Roomy n (.installSnapshot req)) :
    ∃ c', Fits (n.onInstallSnapshot req).2.log c' := by
  have hlog := (acceptLeader_log n req.term req.leaderId).1
  have hacc := acceptLeader_fits h req.term req.leaderId
  rcases onInstallSnapshot_node n req with ⟨_, hn⟩ | ⟨hterm, hn | ⟨hlow, _, _, _, hn⟩⟩
  · rw [hn]
    exact ⟨c, h⟩
  · rw [hn]
    exact ⟨c, hacc⟩
  · obtain ⟨hlast, hseq⟩ := hroom (Nat.not_lt.mp hterm) hlow
    obtain ⟨d, hd⟩ := installSnapshot_fits (t := req.lastIncludedTerm) h hseq hlow hlast
      hfields.2.2
    rw [← hlog] at hd
    rw [hn]
    exact ⟨d, hd⟩

/-- The steps whose requests and restarts are roomy. -/
def RoomyStep (n : Node) (e : Event) (n' : Node) : Prop :=
  FieldsFit e ∧ Roomy n e ∧ Handles n e n'

theorem step_fits {n' : Node} {e : Event} (h : ∃ c, Fits n.log c) (hstep : RoomyStep n e n') :
    ∃ c, Fits n'.log c := by
  obtain ⟨c, h⟩ := h
  obtain ⟨hfields, hroom, hhandles⟩ := hstep
  have hbegin : Fits n.begin.log c := h
  cases e with
  | appendEntries req =>
    obtain rfl := hhandles
    exact onAppendEntries_fits hbegin hfields hroom
  | installSnapshot req =>
    obtain rfl := hhandles
    exact onInstallSnapshot_fits hbegin hfields hroom
  | clientRead fromIndex =>
    obtain rfl := hhandles
    exact ⟨c, hbegin⟩
  | restart => exact start_fits h hroom hhandles

theorem new_fits {id : NodeId} {peers : List NodeId}
    (hstart : Node.start id peers none Dir.empty none = .ok n) : ∃ c, Fits n.log c := by
  obtain ⟨hview, hhealthy, hcfg, _⟩ := start_empty hstart
  have hempty : replayed ⟨[], []⟩ = LogView.empty := rfl
  refine ⟨⟨[], []⟩, hhealthy.stores, hcfg, ⟨?_, ?_, ?_⟩, ?_, ?_⟩
  · rw [hview, hempty]
  · rw [hview, hempty]
  · intro _
    rw [hview]
    exact ⟨hempty, .empty⟩
  · intro p hp
    cases hp
  · rw [hview]
    decide

/-- In every state that such steps reach, the functions of the log stay in range, and so
does the handling of a roomy request. -/
theorem index_arithmetic_in_range {id : NodeId} {peers : List NodeId} {n₀ : Node}
    {es : List Event} (hstart : Node.start id peers none Dir.empty none = .ok n₀)
    (run : Steps RoomyStep n₀ es n) :
    InRange n.log ∧ ∀ req, FieldsFit (.appendEntries req) → Roomy n (.appendEntries req) →
      onAppendEntriesChecked n.begin req = some (n.begin.onAppendEntries req) := by
  obtain ⟨c, h⟩ := run.state_invariant (I := fun m => ∃ c, Fits m.log c) (new_fits hstart)
    (fun _ _ _ h hstep => step_fits h hstep)
  exact ⟨h.inRange, fun req hfields hroom => onAppendEntries_inRange (n := n.begin) h hfields hroom⟩

end

/-- An entry behind a snapshot at index 5. -/
theorem index_arithmetic_in_range_installed :
    ∃ n₀ n, @Node.start ieee "n2" ["n1"] none Dir.empty none = .ok n₀ ∧
      @Steps _ _ (@RoomyStep ieee) n₀ [.installSnapshot ⟨1, "n1", 5, 1, [9]⟩] n ∧
      @InRange ieee n.log ∧
      @onAppendEntriesChecked ieee n.begin ⟨1, "n1", 5, 1, [⟨1, 6, [7]⟩], 6⟩ =
        some (@Node.onAppendEntries ieee n.begin ⟨1, "n1", 5, 1, [⟨1, 6, [7]⟩], 6⟩) := by
  let _ : Crc32 := ieee
  obtain ⟨n₀, log, hstart, hn, hview, hhealthy, hcfg, hseq⟩ := start_fresh "n2" ["n1"]
  have hlog := hn.log
  subst hlog
  let req : InstallSnapshotRequest := ⟨1, "n1", 5, 1, [9]⟩
  have hindex : n₀.log.snapshotIndex = 0 := by rw [hview]; rfl
  have hentries : n₀.log.entries = [] := by rw [hview]; rfl
  have hterm : n₀.begin.ps.currentTerm ≤ req.term := by
    show n₀.ps.currentTerm ≤ 1
    rw [hn.ps]
    decide
  have htakes : Takes n₀.begin [⟨1, 6, [7]⟩, ⟨1, 7, [8]⟩] := by
    refine ⟨⟨_, hhealthy⟩, hcfg, ?_, ?_⟩
    · show n₀.log.wal.nextSequence + 2 * 2 ≤ 2 ^ 64
      rw [hseq]
      decide
    · intro e he
      simp only [List.mem_cons, List.not_mem_nil, or_false] at he
      rcases he with rfl | rfl <;> (rw [FitsSegment]; decide)
  have hlow : n₀.begin.log.snapshotIndex < req.lastIncludedIndex := by
    show n₀.log.snapshotIndex < 5
    rw [hindex]
    decide
  obtain ⟨_, _, hinstalled, htakes'⟩ := onInstallSnapshot_new hterm hlow htakes (by
      show n₀.log.wal.nextSequence + 2 * 2 < 2 ^ 64
      rw [hseq]
      decide)
  have hroom : Roomy n₀ (.installSnapshot req) := by
    intro _ _
    rw [hentries, hseq]
    decide
  have run : Steps RoomyStep n₀ [.installSnapshot req] (n₀.act (.installSnapshot req)) :=
    .one ⟨⟨by decide, by decide, by decide⟩, hroom, rfl⟩
  obtain ⟨hrange, hhandled⟩ := index_arithmetic_in_range hstart run
  refine ⟨n₀, _, hstart, run, hrange,
    hhandled _ ⟨by decide, by decide, by decide, by decide, ?_⟩ ?_⟩
  · intro e he
    obtain rfl := List.mem_singleton.mp he
    decide
  · intro _
    have hlast : (n₀.act (.installSnapshot req)).log.lastIndex = 5 := by
      show (n₀.begin.onInstallSnapshot req).2.log.toLogView.lastIndex = 5
      rw [hinstalled]
      show (n₀.log.toLogView.replaySnapshot 5 1).lastIndex = 5
      rw [hview]
      rfl
    have hnext : (n₀.act (.installSnapshot req)).log.wal.nextSequence + 2 * 2 ≤ 2 ^ 64 :=
      htakes'.room
    rw [hlast]
    exact ⟨by decide, by simp only [List.length_singleton]; omega⟩

/-- A snapshot at the largest index is taken over, and the next read overflows. -/
theorem index_arithmetic_overflows :
    ∃ n₀ n, @Node.start ieee "n2" ["n1"] none Dir.empty none = .ok n₀ ∧
      FieldsFit (.installSnapshot ⟨1, "n1", 2 ^ 64 - 1, 1, []⟩) ∧
      @Handles ieee n₀ (.installSnapshot ⟨1, "n1", 2 ^ 64 - 1, 1, []⟩) n ∧
      entriesFromChecked n.log.toLogView 1 = none := by
  let _ : Crc32 := ieee
  obtain ⟨n₀, log, hstart, hn, hview, hhealthy, hcfg, hseq⟩ := start_fresh "n2" ["n1"]
  have hlog := hn.log
  subst hlog
  let req : InstallSnapshotRequest := ⟨1, "n1", 2 ^ 64 - 1, 1, []⟩
  have hterm : n₀.begin.ps.currentTerm ≤ req.term := by
    show n₀.ps.currentTerm ≤ 1
    rw [hn.ps]
    decide
  have hlow : n₀.begin.log.snapshotIndex < req.lastIncludedIndex := by
    show n₀.log.snapshotIndex < 2 ^ 64 - 1
    rw [hview]
    decide
  have htakes : Takes n₀.begin [] := by
    refine ⟨⟨_, hhealthy⟩, hcfg, ?_, fun e he => absurd he List.not_mem_nil⟩
    show n₀.log.wal.nextSequence + 2 * 0 ≤ 2 ^ 64
    rw [hseq]
    decide
  obtain ⟨_, _, hinstalled, _⟩ := onInstallSnapshot_new hterm hlow htakes (by
    show n₀.log.wal.nextSequence + 2 * 0 < 2 ^ 64
    rw [hseq]
    decide)
  refine ⟨n₀, n₀.act (.installSnapshot req), hstart, ⟨by decide, by decide, by decide⟩, rfl, ?_⟩
  rw [show (n₀.act (.installSnapshot req)).log.toLogView = _ from hinstalled]
  exact entriesFromChecked_installed (by decide) _ _

end RaftNodeArithmetic
