import DistributedWal.RaftNodeMoves
import DistributedWal.ReplicatedLogCrashes

/-! # What a crash leaves of the log and the snapshot

The newest SNAPSHOT record is never deleted, so the replay finds the snapshot point of the
log; while there is none, it rebuilds the whole log, and it always does if no snapshot
deletes a record of the tail that is kept. The snapshot file is written before the record,
and only for a point above the one of the log.
-/
namespace RaftNodeJournal

open LittleEndianCodec WalSegment WalEngine WalContents ReplicatedLog ReplicatedLogContents
open WalEntry (Crc32 ieee Entry WalError headerSize)
open ReplicatedLogRecovery (payloads payloads_append)
open ReplicatedLogCrashes
open RaftPersistentState RaftSnapshot RaftNode RaftNodeFrame RaftNodeHandlers RaftNodeLogs
open RaftNodeAppends RaftNodeVotes RaftNodeLife RaftNodeMoves

def replayed (c : Contents) : LogView := replay LogView.empty (payloads c.entries)

/-- What the records say about the log. -/
structure Tells (c : Contents) (v : LogView) : Prop where
  index : (replayed c).snapshotIndex = v.snapshotIndex
  term : (replayed c).snapshotTerm = v.snapshotTerm
  whole : v.snapshotIndex = 0 → replayed c = v ∧ v.Contiguous

/-- The file holds a snapshot at `i` or above, of term `t` if it is at `i`. -/
def Covers (file : Option Bytes) (i t : ℕ) : Prop :=
  0 < i → ∃ s, Snapshot.load file = .ok (some s) ∧ i ≤ s.lastIncludedIndex ∧
    (s.lastIncludedIndex = i → s.lastIncludedTerm = t)

/-- The snapshot term and the terms of the entries fit their fields. -/
structure TermsFit (v : LogView) : Prop where
  entries : ∀ e ∈ v.entries, e.term < 2 ^ 64
  snapshot : v.snapshotTerm < 2 ^ 64

theorem covers_fileBytes {s : Snapshot} {i t : ℕ} (hindex : s.lastIncludedIndex < 2 ^ 64)
    (hterm : s.lastIncludedTerm < 2 ^ 64) (hle : i ≤ s.lastIncludedIndex)
    (heq : s.lastIncludedIndex = i → s.lastIncludedTerm = t) :
    Covers (some s.fileBytes) i t := by
  obtain ⟨data, hload, _⟩ := load_fileBytes hindex hterm
  intro _
  exact ⟨_, hload, hle, heq⟩

theorem termAt_lt {v : LogView} (h : TermsFit v) (i : ℕ) :
    (v.termAt i).getD v.snapshotTerm < 2 ^ 64 := by
  cases ht : v.termAt i with
  | none => exact h.snapshot
  | some t =>
    rw [Option.getD_some]
    rw [LogView.termAt] at ht
    split at ht
    · cases ht
    · split at ht
      · cases ht
        exact h.snapshot
      · split at ht
        · cases ht
        · obtain ⟨e, he, rfl⟩ := Option.map_eq_some_iff.mp ht
          exact h.entries e (List.mem_of_getElem? he)

theorem TermsFit.push {v : LogView} (h : TermsFit v) {term : ℕ} (ht : term < 2 ^ 64)
    (data : Bytes) : TermsFit (v.push term data) := by
  refine ⟨?_, h.snapshot⟩
  intro e he
  rcases List.mem_append.mp he with he | he
  · exact h.entries e he
  · obtain rfl := List.mem_singleton.mp he
    exact ht

theorem TermsFit.cut {v : LogView} (h : TermsFit v) (i : ℕ) : TermsFit (v.cut i) :=
  ⟨fun e he => h.entries e (List.mem_of_mem_take he), h.snapshot⟩

theorem leValue_eight_lt (bs : Bytes) : leValue (bs.take 8) < 2 ^ 64 := by
  have hlen : (bs.take 8).length ≤ 8 := by
    rw [List.length_take]
    exact Nat.min_le_left _ _
  calc leValue (bs.take 8) < 256 ^ (bs.take 8).length := leValue_lt _
    _ ≤ 256 ^ 8 := Nat.pow_le_pow_right (by decide) hlen
    _ = 2 ^ 64 := by decide

theorem TermsFit.replayAppend {v : LogView} (h : TermsFit v) {e : LogEntry}
    (he : e.term < 2 ^ 64) : TermsFit (v.replayAppend e) := by
  rw [LogView.replayAppend]
  split
  · split
    · refine ⟨?_, h.snapshot⟩
      intro f hf
      rcases List.mem_or_eq_of_mem_set hf with hf | rfl
      · exact h.entries f hf
      · exact he
    · refine ⟨?_, h.snapshot⟩
      intro f hf
      rcases List.mem_append.mp hf with hf | hf
      · exact h.entries f hf
      · obtain rfl := List.mem_singleton.mp hf
        exact he
  · exact h

theorem TermsFit.replayTruncate {v : LogView} (h : TermsFit v) (i : ℕ) :
    TermsFit (v.replayTruncate i) := by
  rw [LogView.replayTruncate]
  split
  · exact ⟨fun f hf => h.entries f (List.mem_of_mem_take hf), h.snapshot⟩
  · split
    · exact ⟨fun f hf => absurd hf List.not_mem_nil, h.snapshot⟩
    · exact h

theorem decodeAppend_term_lt {payload : Bytes} {e : LogEntry} (h : decodeAppend payload = some e) :
    e.term < 2 ^ 64 := by
  rw [decodeAppend] at h
  split at h
  · cases h
  · cases h
    exact leValue_eight_lt _

/-- Replayed terms come from fields of eight bytes. -/
theorem replayRecord_termsFit {v : LogView} (h : TermsFit v) (payload : Bytes) :
    TermsFit (replayRecord v payload) := by
  cases payload with
  | nil => exact h
  | cons kind rest =>
    rw [replayRecord]
    split
    · split
      · rename_i e he
        exact h.replayAppend (decodeAppend_term_lt he)
      · exact h
    · split
      · split
        · exact h.replayTruncate _
        · exact h
      · split
        · split
          · exact ⟨fun f hf => h.entries f (List.mem_of_mem_filter hf), leValue_eight_lt _⟩
          · exact h
        · exact h

theorem replayed_termsFit (c : Contents) : TermsFit (replayed c) := by
  have hreplay : ∀ (ps : List Bytes) (v : LogView), TermsFit v → TermsFit (replay v ps) := by
    intro ps
    induction ps with
    | nil =>
      intro v hv
      exact hv
    | cons p ps ih =>
      intro v hv
      exact ih _ (replayRecord_termsFit hv p)
  exact hreplay _ _ ⟨fun e he => absurd he List.not_mem_nil, by decide⟩

theorem Tells.same {c c' : Contents} {v : LogView} (h : Tells c v)
    (heq : c'.entries = c.entries) : Tells c' v := by
  have hsame : replayed c' = replayed c := congrArg (fun es => replay _ (payloads es)) heq
  refine ⟨?_, ?_, ?_⟩
  · rw [hsame]
    exact h.index
  · rw [hsame]
    exact h.term
  · rw [hsame]
    exact h.whole

theorem replayed_record {c c' : Contents} {s : ℕ} {record : Bytes}
    (heq : c'.entries = c.entries ++ [⟨s, record⟩]) :
    replayed c' = replayRecord (replayed c) record := by
  rw [replayed, heq, payloads_append, replay_append]
  rfl

/-- The record of an entry leaves the snapshot point alone. -/
theorem Tells.append {c c' : Contents} {v : LogView} (h : Tells c v) {s term : ℕ} {data : Bytes}
    (hindex : v.lastIndex + 1 < 2 ^ 64) (hterm : term < 2 ^ 64)
    (heq : c'.entries = c.entries ++ [⟨s, encodeAppend ⟨term, v.lastIndex + 1, data⟩⟩]) :
    Tells c' (v.push term data) := by
  have hrec := replayed_record heq
  rw [replayRecord_append hindex hterm] at hrec
  have hpoint : ∀ w : LogView, (w.replayAppend ⟨term, v.lastIndex + 1, data⟩).snapshotIndex =
      w.snapshotIndex ∧
      (w.replayAppend ⟨term, v.lastIndex + 1, data⟩).snapshotTerm = w.snapshotTerm := by
    intro w
    rw [LogView.replayAppend]
    dsimp only
    split
    · split <;> exact ⟨rfl, rfl⟩
    · exact ⟨rfl, rfl⟩
  refine ⟨?_, ?_, ?_⟩
  · rw [hrec, (hpoint _).1]
    exact h.index
  · rw [hrec, (hpoint _).2]
    exact h.term
  · intro hz
    obtain ⟨hwhole, hcont⟩ := h.whole hz
    refine ⟨?_, hcont.push term data⟩
    rw [hrec, hwhole, LogView.replayAppend_next]

theorem Tells.truncate {c c' : Contents} {v : LogView} (h : Tells c v) {s i : ℕ}
    (hlow : v.snapshotIndex < i) (hi : i < 2 ^ 64)
    (heq : c'.entries = c.entries ++ [⟨s, encodeTruncate i⟩]) : Tells c' (v.cut i) := by
  have hrec := replayed_record heq
  rw [replayRecord_truncate hi] at hrec
  have hpoint : ∀ w : LogView, (w.replayTruncate i).snapshotIndex = w.snapshotIndex ∧
      (w.replayTruncate i).snapshotTerm = w.snapshotTerm := by
    intro w
    rw [LogView.replayTruncate]
    split
    · exact ⟨rfl, rfl⟩
    · split <;> exact ⟨rfl, rfl⟩
  refine ⟨?_, ?_, ?_⟩
  · rw [hrec, (hpoint _).1]
    exact h.index
  · rw [hrec, (hpoint _).2]
    exact h.term
  · intro hz
    obtain ⟨hwhole, hcont⟩ := h.whole hz
    refine ⟨?_, hcont.cut i⟩
    rw [hrec, hwhole, LogView.replayTruncate_inside _ hlow]

/-- Whatever comes before it, a SNAPSHOT record at the end gives the point. -/
theorem tells_snapshot {c : Contents} {front : List Entry} {s i t : ℕ} (hi : i < 2 ^ 64)
    (ht : t < 2 ^ 64) (hpos : 0 < i) (heq : c.active = front ++ [⟨s, encodeSnapshot i t⟩])
    {v : LogView} (hindex : v.snapshotIndex = i) (hterm : v.snapshotTerm = t) : Tells c v := by
  have hrec : replayed c =
      (replay LogView.empty (payloads ((c.sealed.map Prod.snd).flatten ++ front))).replaySnapshot
        i t := by
    rw [replayed, Contents.entries, heq, ← List.append_assoc, payloads_append, replay_append]
    exact replayRecord_snapshot hi ht
  refine ⟨?_, ?_, ?_⟩
  · rw [hrec]
    exact hindex.symm
  · rw [hrec]
    exact hterm.symm
  · intro hz
    omega

section

variable [Crc32] (keeps : Prop)

/-- The WAL of the log tells where the log stands. If snapshots `keeps` the tail, it gives
back the log. -/
structure Logged (log : RaftLog) : Prop where
  config : log.wal.config = walConfig
  journal : ∃ c, Stores log.wal c ∧ Tells c log.toLogView ∧ (keeps → Restores c log.toLogView)
  terms : TermsFit log.toLogView

structure Recoverable (img : Image) : Prop where
  journal : ∃ w c, Stores w c ∧ w.dir = img.wal ∧ w.config = walConfig ∧ Tells c img.view ∧
    (keeps → Restores c img.view)
  covered : Covers img.snapshotFile img.view.snapshotIndex img.view.snapshotTerm

structure Sound (n : Node) : Prop extends Logged keeps n.log where
  covered : Covers n.snapshotFile n.log.snapshotIndex n.log.snapshotTerm
  images : ∀ img ∈ n.trail, Recoverable keeps img

end

section

variable [Crc32]

/-- Counters and message fields fit their 64 bits, with room for what the action adds. -/
def Room (n : Node) : Action → Prop
  | .appendEntries req => n.log.wal.nextSequence + 2 * req.entries.length < 2 ^ 64 ∧
      n.log.lastIndex + req.entries.length < 2 ^ 64 ∧ ∀ e ∈ req.entries, e.term < 2 ^ 64
  | .installSnapshot req => n.log.wal.nextSequence < 2 ^ 64 ∧
      req.lastIncludedIndex < 2 ^ 64 ∧ req.lastIncludedTerm < 2 ^ 64
  | .startWrite _ => n.log.wal.nextSequence < 2 ^ 64 ∧ n.log.lastIndex + 1 < 2 ^ 64
  | .finishWrite index _ _ => n.log.wal.nextSequence < 2 ^ 64 ∧ index < 2 ^ 64
  | _ => True

/-- A snapshot that the node takes or takes over deletes no record of the tail it keeps. -/
def KeepsTail (n : Node) : Action → Prop
  | .installSnapshot req => n.ps.currentTerm ≤ req.term →
      n.log.snapshotIndex < req.lastIncludedIndex → TailOutlasts n.log req.lastIncludedIndex
  | .finishWrite index appends snapshots =>
      n.quorum ≤ 1 + appendAcks appends + snapshotAcks snapshots →
        n.snapshotTrigger ≤ n.entriesSinceSnapshot + 1 → TailOutlasts n.log index
  | _ => True

variable {keeps : Prop} {log : RaftLog}

theorem append_logged (h : Logged keeps log) {term : ℕ} (data : Bytes)
    (hseq : log.wal.nextSequence < 2 ^ 64) (hlast : log.lastIndex + 1 < 2 ^ 64)
    (hterm : term < 2 ^ 64) : Logged keeps (log.append term data).2 ∧
      (log.append term data).2.wal.nextSequence ≤ log.wal.nextSequence + 1 := by
  obtain ⟨c, hst, htell, hrest⟩ := h.journal
  set record := encodeAppend ⟨term, log.lastIndex + 1, data⟩ with hrecord
  have hlen : record.length = 17 + data.length := encodeAppend_length _
  by_cases hfit : headerSize + record.length ≤ log.wal.config.maxSegmentBytes
  · have hshort : record.length < 2 ^ 32 := by
      rw [h.config] at hfit
      have : headerSize + record.length ≤ 64 * 1024 * 1024 := hfit
      omega
    obtain ⟨w, happ, hst', hm, hn⟩ := append_accepted hst record hshort hseq hfit
    simp only [RaftLog.append, ← hrecord, happ]
    refine ⟨⟨hm.config.trans h.config, ⟨_, hst', ?_, ?_⟩, h.terms.push hterm data⟩,
      Nat.le_of_eq hn⟩
    · exact htell.append hlast hterm (grown_entries ..)
    · exact fun hk => (hrest hk).appended log.wal data hlast hterm
  · obtain ⟨w, happ, hst', hm, hn⟩ := append_rejected hst record hfit
    simp only [RaftLog.append, ← hrecord, happ]
    refine ⟨⟨hm.config.trans h.config, ⟨_, hst', ?_, ?_⟩, h.terms⟩, ?_⟩
    · exact htell.same (rotated_entries ..)
    · exact fun hk => (hrest hk).rotated _
    · exact Nat.le_succ_of_le (Nat.le_of_eq hn)

theorem truncateFrom_logged (h : Logged keeps log) {i : ℕ}
    (hseq : log.wal.nextSequence < 2 ^ 64) (hlast : log.lastIndex < 2 ^ 64) :
    Logged keeps (log.truncateFrom i).2 ∧
      (log.truncateFrom i).2.wal.nextSequence ≤ log.wal.nextSequence + 1 := by
  by_cases hout : i ≤ log.snapshotIndex ∨ i > log.lastIndex
  · rw [truncateFrom_out log hout]
    exact ⟨h, Nat.le_succ _⟩
  · obtain ⟨c, hst, htell, hrest⟩ := h.journal
    obtain ⟨w, happ, hst', hm, hn⟩ := append_accepted hst (encodeTruncate i)
      (by rw [encodeTruncate_length]; decide) hseq
      (by rw [encodeTruncate_length, h.config]; decide)
    simp only [RaftLog.truncateFrom, if_neg hout, happ]
    obtain ⟨hlow, hle⟩ := not_or.mp hout
    have hlow := Nat.not_le.mp hlow
    have hle := Nat.not_lt.mp hle
    refine ⟨⟨hm.config.trans h.config, ⟨_, hst', ?_, ?_⟩, h.terms.cut i⟩, Nat.le_of_eq hn⟩
    · exact htell.truncate hlow (by omega) (grown_entries ..)
    · exact fun hk => (hrest hk).truncated log.wal hlow hle (by omega)

/-- The WAL part of a new snapshot point. -/
theorem journalSnapshot_tells (h : Logged keeps log) {i t : ℕ}
    (hseq : log.wal.nextSequence < 2 ^ 64) (hi : i < 2 ^ 64) (ht : t < 2 ^ 64)
    (hlow : log.snapshotIndex < i) (htail : keeps → TailOutlasts log i) :
    ∃ w, journalSnapshot log.wal i t = (.ok (), w) ∧ w.config = walConfig ∧
      ∀ v : LogView, v.snapshotIndex = i → v.snapshotTerm = t →
        (keeps → v = log.toLogView.replaySnapshot i t) →
          ∃ c, Stores w c ∧ Tells c v ∧ (keeps → Restores c v) := by
  obtain ⟨c, hst, _, hrest⟩ := h.journal
  obtain ⟨w, hj, hst', hcfg, _⟩ := journalSnapshot_spec (i := i) (t := t) hst hseq
    (by rw [h.config]; decide)
  refine ⟨w, hj, hcfg.trans h.config, ?_⟩
  intro v hindex hterm hview
  refine ⟨_, hst', tells_snapshot hi ht (Nat.zero_lt_of_lt hlow) rfl hindex hterm, fun hk => ?_⟩
  rw [hview hk]
  exact (hrest hk).journalled hst hi ht hlow (htail hk)

theorem compact_logged (h : Logged keeps log) {i t : ℕ} (hseq : log.wal.nextSequence < 2 ^ 64)
    (hlow : log.snapshotIndex < i) (hi : i < 2 ^ 64) (ht : t < 2 ^ 64)
    (htail : keeps → TailOutlasts log i) :
    (log.compact i t).1 = .ok () ∧ Logged keeps (log.compact i t).2 ∧
      (log.compact i t).2.snapshotIndex = i ∧ (log.compact i t).2.snapshotTerm = t ∧
      (keeps → (log.compact i t).2.toLogView = log.toLogView.replaySnapshot i t) := by
  obtain ⟨w, hj, hcfg, htells⟩ := journalSnapshot_tells h hseq hi ht hlow htail
  have hview : keeps → (⟨if min i log.lastIndex - log.snapshotIndex ≥ log.entries.length then []
      else log.entries.drop (min i log.lastIndex - log.snapshotIndex), i, t⟩ : LogView) =
        log.toLogView.replaySnapshot i t := by
    intro hk
    obtain ⟨c, _, _, hrest⟩ := h.journal
    rw [(hrest hk).contiguous.compacted hlow]
    rfl
  simp only [RaftLog.compact, if_neg (Nat.not_le.mpr hlow), hj]
  refine ⟨trivial, ⟨hcfg, htells _ rfl rfl hview, ?_, ht⟩, trivial, trivial, hview⟩
  intro e he
  dsimp only at he
  split at he
  · exact absurd he List.not_mem_nil
  · exact h.terms.entries e (List.mem_of_mem_drop he)

theorem installSnapshot_logged (h : Logged keeps log) {i t : ℕ}
    (hseq : log.wal.nextSequence < 2 ^ 64) (hlow : log.snapshotIndex < i) (hi : i < 2 ^ 64)
    (ht : t < 2 ^ 64) (htail : keeps → TailOutlasts log i) :
    (log.installSnapshot i t).1 = .ok () ∧ Logged keeps (log.installSnapshot i t).2 ∧
      (log.installSnapshot i t).2.toLogView = log.toLogView.replaySnapshot i t := by
  obtain ⟨w, hj, hcfg, htells⟩ := journalSnapshot_tells h hseq hi ht hlow htail
  simp only [RaftLog.installSnapshot, if_neg (Nat.not_le.mpr hlow), hj]
  refine ⟨trivial, ⟨hcfg, htells _ rfl rfl (fun _ => rfl), ?_, ht⟩, rfl⟩
  intro e he
  exact h.terms.entries e (List.mem_of_mem_filter he)

variable {n : Node}

theorem Sound.image (h : Sound keeps n) : Recoverable keeps n.image := by
  obtain ⟨c, hst, htell, hrest⟩ := h.journal
  exact ⟨⟨n.log.wal, c, hst, rfl, h.config, htell, hrest⟩, h.covered⟩

theorem Sound.mark (h : Sound keeps n) : Sound keeps n.mark := by
  refine ⟨h.toLogged, h.covered, ?_⟩
  intro img himg
  rcases List.mem_append.mp himg with hold | hnew
  · exact h.images img hold
  · obtain rfl := List.mem_singleton.mp hnew
    exact h.image

theorem Sound.frame {m : Node} (h : Sound keeps n) (hlog : m.log = n.log)
    (hfile : m.snapshotFile = n.snapshotFile) (htrail : m.trail = n.trail) : Sound keeps m := by
  refine ⟨hlog ▸ h.toLogged, ?_, htrail ▸ h.images⟩
  rw [hlog, hfile]
  exact h.covered

theorem Sound.untouched {m : Node} (h : Sound keeps n) (hm : Untouched n m) : Sound keeps m := by
  refine ⟨hm.log ▸ h.toLogged, ?_, ?_⟩
  · rw [hm.log, hm.snapshotFile]
    exact h.covered
  · intro img himg
    rcases hm.images img himg with hold | ⟨hwal, hfile, hview⟩
    · exact h.images img hold
    · obtain ⟨hjournal, hcovered⟩ := h.image
      constructor
      · rw [hwal, hview]
        exact hjournal
      · rw [hfile, hview]
        exact hcovered

/-- Another log with the same snapshot point. -/
theorem Sound.withLog (h : Sound keeps n) (hlog : Logged keeps log)
    (hpoint : log.snapshotIndex = n.log.snapshotIndex ∧ log.snapshotTerm = n.log.snapshotTerm) :
    Sound keeps (withLog n log) := by
  refine ⟨hlog, ?_, h.images⟩
  rw [show (RaftNodeLogs.withLog n log).log = log from rfl, hpoint.1, hpoint.2]
  exact h.covered

theorem append_point (log : RaftLog) (term : ℕ) (data : Bytes) :
    (log.append term data).2.snapshotIndex = log.snapshotIndex ∧
      (log.append term data).2.snapshotTerm = log.snapshotTerm := by
  rcases append_cases log term data with ⟨_, hview⟩ | ⟨_, hview⟩
  · rw [hview]
    exact ⟨rfl, rfl⟩
  · rw [hview]
    exact ⟨rfl, rfl⟩

theorem truncateFrom_point (log : RaftLog) (i : ℕ) :
    (log.truncateFrom i).2.snapshotIndex = log.snapshotIndex ∧
      (log.truncateFrom i).2.snapshotTerm = log.snapshotTerm := by
  rcases truncateFrom_cases log i with hview | ⟨_, _, hview⟩
  · rw [hview]
    exact ⟨rfl, rfl⟩
  · rw [hview]
    exact ⟨rfl, rfl⟩

theorem appendLog_sound (h : Sound keeps n) {term : ℕ} (data : Bytes)
    (hseq : n.log.wal.nextSequence < 2 ^ 64) (hlast : n.log.lastIndex + 1 < 2 ^ 64)
    (hterm : term < 2 ^ 64) : Sound keeps (n.appendLog term data).2 :=
  (h.withLog (append_logged h.toLogged data hseq hlast hterm).1 (append_point ..)).mark

theorem truncateLog_sound (h : Sound keeps n) {i : ℕ} (hseq : n.log.wal.nextSequence < 2 ^ 64)
    (hlast : n.log.lastIndex < 2 ^ 64) : Sound keeps (n.truncateLog i) :=
  (h.withLog (truncateFrom_logged h.toLogged hseq hlast).1 (truncateFrom_point ..)).mark

/-- Each entry of a request costs two records at most. -/
theorem storeEntry_sound (h : Sound keeps n) (e : LogEntry)
    (hseq : n.log.wal.nextSequence + 1 < 2 ^ 64) (hlast : n.log.lastIndex + 1 < 2 ^ 64)
    (hterm : e.term < 2 ^ 64) : Sound keeps (n.storeEntry e) ∧
      (n.storeEntry e).log.wal.nextSequence ≤ n.log.wal.nextSequence + 2 ∧
      (n.storeEntry e).log.lastIndex ≤ n.log.lastIndex + 1 := by
  have happend : ∀ m : Node, Sound keeps m → m.log.wal.nextSequence < 2 ^ 64 →
      m.log.lastIndex ≤ n.log.lastIndex →
      Sound keeps (m.appendLog e.term e.data).2 ∧
        (m.appendLog e.term e.data).2.log.wal.nextSequence ≤ m.log.wal.nextSequence + 1 ∧
        (m.appendLog e.term e.data).2.log.lastIndex ≤ n.log.lastIndex + 1 := by
    intro m hm hmseq hmlast
    refine ⟨appendLog_sound hm _ hmseq (by omega) hterm,
      (append_logged hm.toLogged e.data hmseq (by omega) hterm).2, ?_⟩
    rcases appendLog_cases m e.term e.data with ⟨_, hview⟩ | ⟨_, hview⟩
    · rw [hview, LogView.push_lastIndex]
      omega
    · rw [hview]
      omega
  rw [Node.storeEntry]
  split
  · split
    · exact ⟨h, Nat.le_add_right _ _, Nat.le_succ _⟩
    · have hcut := truncateLog_sound (i := e.index) h (by omega) (by omega)
      have hcutseq : (n.truncateLog e.index).log.wal.nextSequence ≤
          n.log.wal.nextSequence + 1 :=
        (truncateFrom_logged h.toLogged (by omega) (by omega)).2
      have hcutlast : (n.truncateLog e.index).log.lastIndex ≤ n.log.lastIndex := by
        rcases truncateLog_cases n e.index with hview | ⟨_, _, hview⟩
        · rw [hview]
        · rw [hview]
          exact LogView.cut_lastIndex_le _ _
      obtain ⟨hs, hseq', hlast'⟩ := happend _ hcut (by omega) hcutlast
      exact ⟨hs, by omega, hlast'⟩
  · obtain ⟨hs, hseq', hlast'⟩ := happend n h (by omega) le_rfl
    exact ⟨hs, by omega, hlast'⟩

theorem storeEntries_sound (h : Sound keeps n) {entries : List LogEntry}
    (hseq : n.log.wal.nextSequence + 2 * entries.length < 2 ^ 64)
    (hlast : n.log.lastIndex + entries.length < 2 ^ 64)
    (hterms : ∀ e ∈ entries, e.term < 2 ^ 64) : Sound keeps (n.storeEntries entries) := by
  induction entries generalizing n with
  | nil => exact h
  | cons e entries ih =>
    rw [List.length_cons] at hseq hlast
    obtain ⟨hs, hseq', hlast'⟩ := storeEntry_sound h e (by omega) (by omega)
      (hterms e (List.mem_cons_self ..))
    exact ih hs (by omega) (by omega) (fun x hx => hterms x (List.mem_cons_of_mem _ hx))

theorem onAppendEntries_sound (h : Sound keeps n) {req : AppendEntriesRequest}
    (hseq : n.log.wal.nextSequence + 2 * req.entries.length < 2 ^ 64)
    (hlast : n.log.lastIndex + req.entries.length < 2 ^ 64)
    (hterms : ∀ e ∈ req.entries, e.term < 2 ^ 64) : Sound keeps (n.onAppendEntries req).2 := by
  have hacc := h.untouched (acceptLeader_untouched n req.term req.leaderId)
  obtain ⟨hlog, _⟩ := acceptLeader_log n req.term req.leaderId
  obtain ⟨_, ⟨_, _, hn | hn⟩ | ⟨_, _, hn⟩⟩ := onAppendEntries_cases n req
  · rw [hn]
    exact h
  · rw [hn]
    exact hacc
  · have hst := storeEntries_sound hacc (by rw [hlog]; exact hseq) (by rw [hlog]; exact hlast)
      hterms
    rw [hn]
    exact hst.frame rfl rfl rfl

/-- The file moves ahead of the log. -/
theorem saveSnapshot_sound (h : Sound keeps n) {s : Snapshot}
    (hlow : n.log.snapshotIndex < s.lastIncludedIndex) (hindex : s.lastIncludedIndex < 2 ^ 64)
    (hterm : s.lastIncludedTerm < 2 ^ 64) : Sound keeps (n.saveSnapshot s) := by
  apply Sound.mark
  refine ⟨h.toLogged, ?_, h.images⟩
  exact covers_fileBytes hindex hterm (Nat.le_of_lt hlow)
    (fun heq => absurd heq (Nat.ne_of_gt hlow))

/-- The log catches up with the file. -/
theorem withJournal_sound (h : Sound keeps n) {i t : ℕ} (hseq : n.log.wal.nextSequence < 2 ^ 64)
    (hlow : n.log.snapshotIndex < i) (hi : i < 2 ^ 64) (ht : t < 2 ^ 64)
    (hfile : Covers n.snapshotFile i t) (hlog : Logged keeps log) (hindex : log.snapshotIndex = i)
    (hterm : log.snapshotTerm = t) (htail : keeps → TailOutlasts n.log i)
    (hview : keeps → log.toLogView = n.log.toLogView.replaySnapshot i t) :
    Sound keeps (withJournal n log i t).mark := by
  apply Sound.mark
  have hcovered : Covers n.snapshotFile log.snapshotIndex log.snapshotTerm := by
    rw [hindex, hterm]
    exact hfile
  refine ⟨hlog, hcovered, ?_⟩
  intro img himg
  rcases List.mem_append.mp himg with hold | hnew
  · exact h.images img hold
  · rw [Node.journalTrail, if_neg (Nat.not_le.mpr hlow)] at hnew
    obtain ⟨d, hd, rfl⟩ := List.mem_map.mp hnew
    obtain ⟨c, hst, _, hrest⟩ := h.journal
    obtain ⟨w, k, hk, hst', hdir, hcfg⟩ := journalImages_stores hst hseq
      (by rw [h.config]; decide) hd
    rw [grown_deletions hst] at hk
    obtain ⟨front, hfront⟩ := grown_active c n.log.wal (encodeSnapshot i t)
    refine ⟨⟨w, _, hst', hdir, hcfg.trans h.config, ?_, fun hkeeps => ?_⟩, hcovered⟩
    · exact tells_snapshot (c := dropped _ k) hi ht (Nat.zero_lt_of_lt hlow) hfront hindex hterm
    · rw [hview hkeeps]
      exact (hrest hkeeps).snapshotted hst hi ht hlow (htail hkeeps) hk

theorem onInstallSnapshot_sound (h : Sound keeps n) {req : InstallSnapshotRequest}
    (hseq : n.log.wal.nextSequence < 2 ^ 64) (hindex : req.lastIncludedIndex < 2 ^ 64)
    (hterm : req.lastIncludedTerm < 2 ^ 64)
    (htail : keeps → KeepsTail n (.installSnapshot req)) :
    Sound keeps (n.onInstallSnapshot req).2 := by
  have hacc := h.untouched (acceptLeader_untouched n req.term req.leaderId)
  obtain ⟨hlog, _⟩ := acceptLeader_log n req.term req.leaderId
  rcases onInstallSnapshot_node n req with ⟨_, hn⟩ | ⟨hcur, hn | ⟨hlow, _, _, _, hn⟩⟩
  · rw [hn]
    exact h
  · rw [hn]
    exact hacc
  · have htail : keeps →
        TailOutlasts (n.acceptLeader req.term req.leaderId).log req.lastIncludedIndex := by
      intro hk
      rw [hlog]
      exact htail hk (Nat.not_lt.mp hcur) hlow
    rw [← hlog] at hlow hseq
    have hsaved := saveSnapshot_sound hacc
      (s := ⟨req.lastIncludedIndex, req.lastIncludedTerm, req.data⟩) hlow hindex hterm
    obtain ⟨hok, hlogged, hview⟩ :=
      installSnapshot_logged (t := req.lastIncludedTerm) hsaved.toLogged hseq hlow hindex hterm
        htail
    have hst := withJournal_sound hsaved hseq hlow hindex hterm
      (covers_fileBytes hindex hterm le_rfl (fun _ => rfl)) hlogged (by rw [hview]; rfl)
      (by rw [hview]; rfl) htail (fun _ => hview)
    rw [hn]
    exact hst.frame rfl rfl rfl

theorem takeSnapshot_sound (h : Sound keeps n) (hseq : n.log.wal.nextSequence < 2 ^ 64)
    (hlow : n.log.snapshotIndex < n.commitIndex) (hindex : n.commitIndex < 2 ^ 64)
    (htail : keeps → TailOutlasts n.log n.commitIndex) : Sound keeps n.takeSnapshot.2 := by
  have hterm := termAt_lt h.terms n.commitIndex
  rw [Node.takeSnapshot]
  dsimp only
  split
  · exact h
  · set t := (n.log.termAt n.commitIndex).getD n.log.snapshotTerm with ht
    have hsaved : ∀ data, Sound keeps (n.saveSnapshot ⟨n.commitIndex, t, data⟩) :=
      fun data => saveSnapshot_sound h hlow hindex hterm
    obtain ⟨hok, hlogged, hpoint, hpointTerm, hview⟩ :=
      compact_logged h.toLogged hseq hlow hindex hterm htail
    have hst : ∀ data, Sound keeps ((n.saveSnapshot ⟨n.commitIndex, t, data⟩).compactLog
        n.commitIndex t).2 := by
      intro data
      exact withJournal_sound (hsaved data) hseq hlow hindex hterm
        (covers_fileBytes hindex hterm le_rfl (fun _ => rfl)) hlogged hpoint hpointTerm htail hview
    split
    · rename_i e m hm
      obtain rfl := congrArg Prod.snd hm
      exact hst _
    · rename_i m hm
      obtain rfl := congrArg Prod.snd hm
      exact (hst _).frame rfl rfl rfl

theorem commitWrite_sound (h : Sound keeps n) {index : ℕ} (acks : ℕ)
    (hseq : n.log.wal.nextSequence < 2 ^ 64) (hlow : n.log.snapshotIndex < index)
    (hindex : index < 2 ^ 64) (htail : keeps → n.quorum ≤ acks →
      n.snapshotTrigger ≤ n.entriesSinceSnapshot + 1 → TailOutlasts n.log index) :
    Sound keeps (n.commitWrite index acks).2 := by
  rw [Node.commitWrite]
  split
  · exact h
  · rename_i hacks
    have hcounted : Sound keeps { n with
        commitIndex := index
        entriesSinceSnapshot := n.entriesSinceSnapshot + 1 } := h.frame rfl rfl rfl
    dsimp only
    split
    · rename_i htrigger
      exact takeSnapshot_sound hcounted hseq hlow hindex
        (fun hk => htail hk (Nat.not_lt.mp hacks) htrigger)
    · exact hcounted

theorem startWrite_sound (h : Sound keeps n) (data : Bytes) (hseq : n.log.wal.nextSequence < 2 ^ 64)
    (hlast : n.log.lastIndex + 1 < 2 ^ 64) (hterm : n.ps.currentTerm < 2 ^ 64) :
    Sound keeps (n.startWrite data).2 := by
  rcases startWrite_node n data with hn | hn
  · rw [hn]
    exact h
  · rw [hn]
    exact appendLog_sound h data hseq hlast hterm

/-- What the node waits for is a write above its snapshot. -/
def AboveWrite (n : Node) (d : Doing) : Prop :=
  ∀ index data, d = .writing index data → n.log.snapshotIndex < index

theorem act_sound (h : Sound keeps n) {a : Action} {d d' : Doing} (hturn : Turn n d a d')
    (habove : AboveWrite n d) (hb : Bounded n a) (hroom : Room n a)
    (htail : keeps → KeepsTail n a) : Sound keeps (n.act a) := by
  have hbegin := h.untouched (begin_untouched n)
  by_cases ha : TouchesLog a
  · cases hturn with
    | appendEntries req => exact onAppendEntries_sound hbegin hroom.1 hroom.2.1 hroom.2.2
    | installSnapshot req =>
      exact onInstallSnapshot_sound hbegin hroom.1 hroom.2.1 hroom.2.2 htail
    | @writeRefused data e hwrite =>
      have hterm : n.ps.currentTerm < 2 ^ 64 := by
        rw [Bounded, Node.act, (startWrite_quiet n.begin data).ps] at hb
        exact hb
      exact startWrite_sound hbegin data hroom.1 hroom.2 hterm
    | @writeStarted data index hwrite =>
      have hterm : n.ps.currentTerm < 2 ^ 64 := by
        rw [Bounded, Node.act, (startWrite_quiet n.begin data).ps] at hb
        exact hb
      exact startWrite_sound hbegin data hroom.1 hroom.2 hterm
    | @finishWrite index data appends snapshots happends hsnapshots =>
      have hrep := finishReplication_untouched n.begin index appends snapshots
      have hlow := habove index data rfl
      rw [Node.act, finishWrite_eq]
      apply commitWrite_sound (hbegin.untouched hrep)
      · rw [hrep.log]
        exact hroom.1
      · rw [hrep.log]
        exact hlow
      · exact hroom.2
      · intro hk hacks htrigger
        have hle := (finishReplication_cases n.begin index appends snapshots).1
        rw [finishReplication_quorum] at hacks
        rw [hrep.snapshotTrigger, hrep.entriesSinceSnapshot] at htrigger
        rw [hrep.log]
        exact htail hk (hacks.trans hle) htrigger
    | _ => exact ha.elim
  · exact h.untouched (act_untouched ha)

theorem act_above {a : Action} {d d' : Doing} (hturn : Turn n d a d') :
    AboveWrite (n.act a) d' := by
  cases hturn with
  | @writeStarted data index hwrite =>
    intro i b heq
    cases heq
    rcases startWrite_cases n.begin data with ⟨⟨e, herr⟩, _⟩ | ⟨_, hok, hview⟩
    · rw [hwrite] at herr
      cases herr
    · rw [hwrite] at hok
      cases hok
      rw [Node.act, hview]
      exact Nat.lt_succ_of_le (Nat.le_add_right _ _)
  | _ =>
    intro i b heq
    cases heq

/-- The replay of an image finds its snapshot point. -/
theorem start_sound {img : Image} (h : Recoverable keeps img) {id : NodeId} {peers : List NodeId}
    (hstart : Node.start id peers img.stateFile img.wal img.snapshotFile = .ok n) :
    Sound keeps n ∧ n.log.snapshotIndex = img.view.snapshotIndex ∧
      n.log.snapshotTerm = img.view.snapshotTerm ∧
      (img.view.snapshotIndex = 0 → n.log.toLogView = img.view ∧ img.view.Contiguous) := by
  obtain ⟨⟨w, c, hst, hdir, hcfg, htell, hrest⟩, hcovered⟩ := h
  rw [← hdir] at hstart
  obtain ⟨hst', hcfg', hview, hn⟩ := start_stores hst hcfg hstart
  have hview : n.log.toLogView = replayed c := hview
  have hindex : n.log.snapshotIndex = img.view.snapshotIndex := by
    rw [hview]
    exact htell.index
  have hterm : n.log.snapshotTerm = img.view.snapshotTerm := by
    rw [hview]
    exact htell.term
  refine ⟨⟨⟨hcfg', ⟨c, hst', ⟨?_, ?_, ?_⟩, fun hk => ?_⟩, ?_⟩, ?_, ?_⟩, hindex, hterm, ?_⟩
  · rw [hview]
  · rw [hview]
  · intro hz
    rw [hindex] at hz
    obtain ⟨hwhole, hcont⟩ := htell.whole hz
    rw [hview, hwhole]
    exact ⟨rfl, hcont⟩
  · have hwhole : replayed c = img.view := (hrest hk).whole
    rw [hview, hwhole]
    exact hrest hk
  · rw [hview]
    exact replayed_termsFit c
  · rw [hn.snapshotFile, hindex, hterm]
    exact hcovered
  · rw [hn.trail]
    simp
  · intro hz
    rw [hview]
    exact htell.whole hz

/-- If the tail is kept, the files replay to the log. -/
theorem Recoverable.reopens {img : Image} (h : Recoverable True img) : Reopens img := by
  obtain ⟨w, c, hst, hdir, hcfg, _, hrest⟩ := h.journal
  intro log hopen
  obtain ⟨log', hopen', hview, _⟩ := open_log_spec hst
  rw [hcfg, hdir, hopen] at hopen'
  cases hopen'
  exact hview.trans (hrest trivial).whole

theorem new_sound {id : NodeId} {peers : List NodeId}
    (hstart : Node.start id peers none Dir.empty none = .ok n) : Sound keeps n := by
  obtain ⟨hview, hhealthy, hcfg, hn⟩ := start_empty hstart
  have hempty : replayed ⟨[], []⟩ = LogView.empty := rfl
  refine ⟨⟨hcfg, ⟨_, hhealthy.stores, ⟨?_, ?_, ?_⟩, fun _ => ?_⟩, ?_⟩, ?_, ?_⟩
  · rw [hview, hempty]
  · rw [hview, hempty]
  · intro _
    rw [hview]
    exact ⟨hempty, .empty⟩
  · rw [hview]
    exact .empty
  · rw [hview]
    exact ⟨fun e he => absurd he List.not_mem_nil, by decide⟩
  · intro hpos
    rw [hview] at hpos
    exact absurd hpos (by decide)
  · rw [hn.trail]
    simp

def SoundStage (keeps : Prop) : Stage → Prop
  | .up n d => Sound keeps n ∧ AboveWrite n d
  | .down img => Recoverable keeps img

theorem life_sound {ok : LifeConditions} {id : NodeId} {peers : List NodeId} {st : Stage}
    (hroom : ∀ n a, ok.action n a → Room n a)
    (hfile : ∀ img file, ok.restart img file → file = img.snapshotFile)
    (htail : keeps → ∀ n a, ok.action n a → KeepsTail n a)
    (life : NodeLife ok id peers st) : SoundStage keeps st := by
  have hidle : ∀ n : Node, AboveWrite n .idle := by
    intro n i b heq
    cases heq
  induction life with
  | new hstart => exact ⟨new_sound hstart, hidle _⟩
  | act life hturn hb hok ih =>
    refine ⟨?_, act_above hturn⟩
    exact act_sound ih.1 hturn ih.2 hb (hroom _ _ hok) (fun hk => htail hk _ _ hok)
  | crash life hturn hb hok himg ih =>
    have hsound := act_sound ih.1 hturn ih.2 hb (hroom _ _ hok) (fun hk => htail hk _ _ hok)
    exact hsound.images _ himg
  | restart life hok hstart ih =>
    rw [hfile _ _ hok] at hstart
    exact ⟨(start_sound ih hstart).1, hidle _⟩

/-- Only the width of the counters and fields limits these lives; nothing but a crash
leaves the files. -/
def roomy : LifeConditions := ⟨Room, fun img file => file = img.snapshotFile⟩

/-- After any crash the node starts, and what the log no longer has because of a snapshot
is in the snapshot file. -/
theorem snapshot_file_covers_log {id : NodeId} {peers : List NodeId} {img : Image}
    (life : NodeLife roomy id peers (.down img)) :
    ∃ n, Node.start id peers img.stateFile img.wal img.snapshotFile = .ok n ∧
      (0 < n.log.snapshotIndex → ∃ s, Snapshot.load img.snapshotFile = .ok (some s) ∧
        n.log.snapshotIndex ≤ s.lastIncludedIndex ∧
        (s.lastIncludedIndex = n.log.snapshotIndex →
          s.lastIncludedTerm = n.log.snapshotTerm)) := by
  have himg : Recoverable False img :=
    life_sound (fun _ _ h => h) (fun _ _ h => h) False.elim life
  obtain ⟨w, c, hst, hdir, hcfg, _⟩ := himg.journal
  obtain ⟨log, hopen, _⟩ := open_log_spec hst
  rw [hcfg, hdir] at hopen
  obtain ⟨n, hstart, _⟩ := start_ok id peers img.stateFile img.snapshotFile hopen
  obtain ⟨_, hindex, hterm, _⟩ := start_sound himg hstart
  refine ⟨n, hstart, ?_⟩
  rw [hindex, hterm]
  exact himg.covered

end

/-- A snapshot at index 5, installed before the crash. -/
theorem snapshot_file_covers_log_installed :
    ∃ img n s, @NodeLife ieee roomy "n1" ["n2"] (.down img) ∧
      @Node.start ieee "n1" ["n2"] img.stateFile img.wal img.snapshotFile = .ok n ∧
      n.log.snapshotIndex = 5 ∧ Snapshot.load img.snapshotFile = .ok (some s) ∧
      5 ≤ s.lastIncludedIndex ∧
      (s.lastIncludedIndex = 5 → s.lastIncludedTerm = n.log.snapshotTerm) := by
  let _ : Crc32 := ieee
  obtain ⟨n, log, hstart, hn, hview, hhealthy, hcfg, hseq⟩ := start_fresh "n1" ["n2"]
  have hlog := hn.log
  subst hlog
  let req : InstallSnapshotRequest := ⟨1, "n2", 5, 1, [9]⟩
  have hlow : n.begin.log.snapshotIndex < req.lastIncludedIndex := by
    show n.log.snapshotIndex < 5
    rw [hview]
    decide
  have hterm : n.begin.ps.currentTerm ≤ req.term := by
    show n.ps.currentTerm ≤ 1
    rw [hn.ps]
    decide
  have htakes : Takes n.begin [] := by
    refine ⟨⟨_, hhealthy⟩, hcfg, ?_, fun e he => absurd he List.not_mem_nil⟩
    show n.log.wal.nextSequence + 2 * 0 ≤ 2 ^ 64
    rw [hseq]
    decide
  obtain ⟨_, hcur, hinstalled, _⟩ := onInstallSnapshot_new hterm hlow htakes (by
    show n.log.wal.nextSequence + 2 * 0 < 2 ^ 64
    rw [hseq]
    decide)
  have life : NodeLife roomy "n1" ["n2"] (.up n .idle) := .new hstart
  have hb : Bounded n (.installSnapshot req) := by
    rw [Bounded, Node.act, hcur]
    decide
  have hroom : Room n (.installSnapshot req) := ⟨by rw [hseq]; decide, by decide, by decide⟩
  have life := life.act (.installSnapshot req) hb hroom
  set m := n.act (.installSnapshot req) with hm
  have htrail : m.image ∈ (m.act (.clientRead 1)).trail := List.mem_singleton_self _
  have life := life.crash (.clientRead 1) hb trivial htrail
  have himg : Recoverable False m.image :=
    life_sound (fun _ _ h => h) (fun _ _ h => h) False.elim life
  obtain ⟨n', hstart', hcovers⟩ := snapshot_file_covers_log life
  obtain ⟨_, hindex, _⟩ := start_sound himg hstart'
  have hfive : n'.log.snapshotIndex = 5 := by
    rw [hindex]
    show m.log.snapshotIndex = 5
    rw [hm, Node.act, hinstalled]
    rfl
  rw [hfive] at hcovers
  obtain ⟨s, hload, hle, heq⟩ := hcovers (by decide)
  exact ⟨m.image, n', s, life, hstart', hfive, hload, hle, heq⟩

end RaftNodeJournal
