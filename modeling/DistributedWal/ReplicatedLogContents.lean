import DistributedWal.ReplicatedLog

/-! # The journal under the log operations

While WAL operations succeed, each log operation does to the view what the source says
and appends one record to the journal. Compaction and snapshot installation leave only
the records of the active segment.
-/
namespace ReplicatedLogContents

open LittleEndianCodec WalEntry WalSegment WalEngine WalContents ReplicatedLog

/-- The directory after each deletion of the loop of `truncate_before`. -/
def truncateImages [Crc32] (beforeSequence : ℕ) : List ℕ → Dir → List Dir
  | [], _ => []
  | sid :: rest, d =>
    match readEntries d sid with
    | .error _ => []
    | .ok entries =>
      if maxSequence entries < beforeSequence then
        d.remove sid :: truncateImages beforeSequence rest (d.remove sid)
      else truncateImages beforeSequence rest d

/-- The directory after each effect of `journalSnapshot`: the record, the checkpoint,
every deleted segment. -/
def journalImages [Crc32] (wal : Wal) (lastIndex lastTerm : ℕ) : List Dir :=
  match wal.append (encodeSnapshot lastIndex lastTerm) with
  | (.error _, wal) => [wal.dir]
  | (.ok snapSeq, wal) =>
    wal.dir :: (wal.checkpoint snapSeq).dir ::
      truncateImages snapSeq wal.sealed (wal.checkpoint snapSeq).dir

def snapshotRecordSize : ℕ := headerSize + 17

/-- The records of the active segment that a compaction starting now leaves on disk. -/
def survivingRecords (wal : Wal) (c : Contents) : List Entry :=
  if wal.active.wouldOverflow snapshotRecordSize then [] else c.active

/-- The records it deletes. -/
def lostRecords (wal : Wal) (c : Contents) : List Entry :=
  if wal.active.wouldOverflow snapshotRecordSize then c.entries
  else (c.sealed.map Prod.snd).flatten

theorem lost_surviving (wal : Wal) (c : Contents) :
    lostRecords wal c ++ survivingRecords wal c = c.entries := by
  rw [lostRecords, survivingRecords]
  split
  · rw [List.append_nil]
  · rfl

def journalled (wal : Wal) (c : Contents) (i t : ℕ) : Contents :=
  ⟨[], survivingRecords wal c ++ [⟨wal.nextSequence, encodeSnapshot i t⟩]⟩

/-- What is left when the first `k` sealed segments are gone. -/
def dropped (c : Contents) (k : ℕ) : Contents := ⟨c.sealed.drop k, c.active⟩

variable [Crc32] {w : Wal} {c : Contents}

theorem journalSnapshot_spec (h : Stores w c) {i t : ℕ} (hseq : w.nextSequence < 2 ^ 64)
    (hfit : snapshotRecordSize ≤ w.config.maxSegmentBytes) :
    ∃ w', journalSnapshot w i t = (.ok (), w') ∧ Stores w' (journalled w c i t) ∧
      w'.config = w.config ∧ w'.nextSequence = w.nextSequence + 1 := by
  have hsize : headerSize + (encodeSnapshot i t).length = snapshotRecordSize := by
    simp [snapshotRecordSize]
  obtain ⟨w₁, happ, hst, hm, hn⟩ := append_accepted h (encodeSnapshot i t)
    (by rw [encodeSnapshot_length]; decide) hseq (by rw [hsize]; exact hfit)
  obtain ⟨w₂, htr, hst₂, hm₂, hn₂, _⟩ :=
    truncateBefore_spec (checkpoint_stores hst w.nextSequence) w.nextSequence
  have hpos := h.numbered.pos
  -- the sealed segments only hold older records
  have hnone : ∀ ps : List (ℕ × List Entry),
      (∀ p ∈ ps, ∀ e ∈ p.2, e ∈ c.entries) → kept w.nextSequence ps = [] := by
    intro ps hps
    refine List.filter_eq_nil_iff.mpr (fun p hp => ?_)
    have hlt : maxSequence p.2 < w.nextSequence := (maxSequence_lt_iff _ _).mpr
      ⟨hpos, fun e he => (h.numbered.bounds (hps p hp e he)).2⟩
    simpa using hlt
  have hsealed : ∀ p ∈ c.sealed, ∀ e ∈ p.2, e ∈ c.entries := fun p hp e he =>
    List.mem_append_left _ (List.mem_flatten.mpr ⟨p.2, List.mem_map_of_mem hp, he⟩)
  have hrotated : ∀ p ∈ c.sealed ++ [(w.active.id, c.active)], ∀ e ∈ p.2, e ∈ c.entries := by
    intro p hp e he
    rcases List.mem_append.mp hp with hp | hp
    · exact hsealed p hp e he
    · obtain rfl := List.mem_singleton.mp hp
      exact List.mem_append_right _ he
  have hcontents : (c.grown w (encodeSnapshot i t)).truncated w.nextSequence =
      journalled w c i t := by
    rw [Contents.grown, hsize, journalled, survivingRecords]
    split
    · simp only [Contents.appended, Contents.rotated, Contents.truncated, hnone _ hrotated]
    · simp only [Contents.appended, Contents.truncated, hnone _ hsealed]
  refine ⟨w₂, ?_, hcontents ▸ hst₂, hm₂.config.trans hm.config, hn₂.trans hn⟩
  simp only [journalSnapshot, happ]
  exact htr

/-- Removing the first sealed segment leaves a stored suffix. -/
theorem Stores.drop_first {p : ℕ × List Entry} {ps : List (ℕ × List Entry)}
    {active : List Entry} (h : Stores w ⟨p :: ps, active⟩) :
    Stores { w with sealed := ps.map Prod.fst, dir := w.dir.remove p.1 } ⟨ps, active⟩ := by
  have hsub : Contents.entries ⟨ps, active⟩ <:+ Contents.entries ⟨p :: ps, active⟩ :=
    ⟨p.2, by simp [Contents.entries]⟩
  have hasc := h.ascending
  rw [Contents.ids, List.map_cons, List.cons_append, List.pairwise_cons] at hasc
  obtain ⟨hfirst, hrest⟩ := hasc
  refine ⟨⟨rfl, hrest, ?_, ?_, h.active_bytes, h.size, h.flushed, h.cap,
    h.numbered.suffix hsub⟩, fun e he => h.fits e (hsub.subset he)⟩
  · have hne : p.1 ∉ ps.map Prod.fst ++ [w.active.id] :=
      fun hmem => lt_irrefl _ (hfirst _ hmem)
    have hfiles := h.files
    rw [Contents.ids, List.map_cons, List.cons_append, List.toFinset_cons] at hfiles
    simp only [Dir.remove, hfiles]
    exact Finset.erase_insert (fun hmem => hne (List.mem_toFinset.mp hmem))
  · exact fun q hq => h.sealed_bytes q (List.mem_cons_of_mem p hq)

theorem truncateImages_stores {b : ℕ} {ps : List (ℕ × List Entry)} {active : List Entry}
    (h : Stores w ⟨ps, active⟩) {d : Dir} (hd : d ∈ truncateImages b (ps.map Prod.fst) w.dir)
    (hlow : ∀ p ∈ ps, maxSequence p.2 < b) :
    ∃ w' k, k ≤ ps.length ∧ Stores w' ⟨ps.drop k, active⟩ ∧ w'.dir = d ∧
      w'.config = w.config := by
  induction ps generalizing w with
  | nil => simp [truncateImages] at hd
  | cons p ps ih =>
    have hread := h.read_sealed (p := p) (by simp)
    rw [List.map_cons, truncateImages, hread] at hd
    simp only [if_pos (hlow p (by simp)), List.mem_cons] at hd
    have hdrop := Stores.drop_first h
    rcases hd with rfl | hd
    · exact ⟨_, 1, Nat.succ_pos _, hdrop, rfl, rfl⟩
    · obtain ⟨w', k, hk, hst, hdir, hcfg⟩ :=
        ih hdrop hd (fun q hq => hlow q (List.mem_cons_of_mem p hq))
      exact ⟨w', k + 1, Nat.succ_le_succ hk, hst, hdir, hcfg⟩

/-- Every directory a crash inside `journalSnapshot` can leave is one that opens, with the
new record in its last segment and some of the sealed ones gone. -/
theorem journalImages_stores (h : Stores w c) {i t : ℕ} (hseq : w.nextSequence < 2 ^ 64)
    (hfit : snapshotRecordSize ≤ w.config.maxSegmentBytes) {d : Dir}
    (hd : d ∈ journalImages w i t) :
    ∃ w' k, k ≤ (c.grown w (encodeSnapshot i t)).sealed.length ∧
      Stores w' (dropped (c.grown w (encodeSnapshot i t)) k) ∧ w'.dir = d ∧
      w'.config = w.config := by
  have hsize : headerSize + (encodeSnapshot i t).length = snapshotRecordSize := by
    simp [snapshotRecordSize]
  obtain ⟨w₁, happ, hst, hm, hn⟩ := append_accepted h (encodeSnapshot i t)
    (by rw [encodeSnapshot_length]; decide) hseq (by rw [hsize]; exact hfit)
  have hst₂ := checkpoint_stores hst w.nextSequence
  have hcfg : (w₁.checkpoint w.nextSequence).config = w.config := hm.config
  simp only [journalImages, happ, List.mem_cons] at hd
  rcases hd with rfl | rfl | hd
  · exact ⟨w₁, 0, Nat.zero_le _, hst, rfl, hm.config⟩
  · exact ⟨_, 0, Nat.zero_le _, hst₂, rfl, hcfg⟩
  · have hlow : ∀ p ∈ (c.grown w (encodeSnapshot i t)).sealed,
        maxSequence p.2 < w.nextSequence := by
      intro p hp
      refine (maxSequence_lt_iff _ _).mpr ⟨h.numbered.pos, fun e he => ?_⟩
      -- a sealed segment was full before the record was appended
      have hmem : e ∈ c.entries := by
        unfold Contents.grown at hp
        split at hp
        · rw [← rotated_entries c w.active.id]
          exact List.mem_append_left _
            (List.mem_flatten.mpr ⟨p.2, List.mem_map_of_mem hp, he⟩)
        · exact List.mem_append_left _
            (List.mem_flatten.mpr ⟨p.2, List.mem_map_of_mem hp, he⟩)
      exact (h.numbered.bounds hmem).2
    rw [hst.sealed_ids] at hd
    obtain ⟨w', k, hk, hst', hdir, hcfg'⟩ := truncateImages_stores hst₂ hd hlow
    exact ⟨w', k, hk, hst', hdir, hcfg'.trans hcfg⟩

/-- A log whose journal is on disk. What the journal replays to is another matter. -/
structure Healthy (log : RaftLog) (c : Contents) : Prop where
  stores : Stores log.wal c
  contiguous : log.toLogView.Contiguous

variable {log : RaftLog}

theorem append_spec (h : Healthy log c) (term : ℕ) (data : Bytes)
    (hseq : log.wal.nextSequence < 2 ^ 64) (hlen : 17 + data.length < 2 ^ 32)
    (hfit : headerSize + (17 + data.length) ≤ log.wal.config.maxSegmentBytes) :
    ∃ log', log.append term data = (.ok (log.lastIndex + 1), log') ∧
      log'.toLogView = log.toLogView.push term data ∧
      Healthy log'
        (c.grown log.wal (encodeAppend ⟨term, log.lastIndex + 1, data⟩)) ∧
      log'.wal.config = log.wal.config ∧
      log'.wal.nextSequence = log.wal.nextSequence + 1 := by
  obtain ⟨w, happ, hst, hm, hn⟩ := append_accepted h.stores
    (encodeAppend ⟨term, log.lastIndex + 1, data⟩) (by simpa using hlen) hseq
    (by simpa using hfit)
  simp only [RaftLog.append, happ]
  exact ⟨_, rfl, rfl, ⟨hst, h.contiguous.push term data⟩, hm.config, hn⟩

theorem truncateFrom_out (log : RaftLog) {i : ℕ}
    (hi : i ≤ log.snapshotIndex ∨ i > log.lastIndex) :
    log.truncateFrom i = (.ok (), log) := by
  rw [RaftLog.truncateFrom, if_pos hi]

theorem truncateFrom_spec (h : Healthy log c) {i : ℕ}
    (hseq : log.wal.nextSequence < 2 ^ 64)
    (hfit : headerSize + 9 ≤ log.wal.config.maxSegmentBytes)
    (hi : ¬ (i ≤ log.snapshotIndex ∨ i > log.lastIndex)) :
    ∃ log', log.truncateFrom i = (.ok (), log') ∧
      log'.toLogView = log.toLogView.cut i ∧
      Healthy log' (c.grown log.wal (encodeTruncate i)) ∧
      log'.wal.config = log.wal.config ∧
      log'.wal.nextSequence = log.wal.nextSequence + 1 := by
  obtain ⟨w, happ, hst, hm, hn⟩ := append_accepted h.stores (encodeTruncate i)
    (by rw [encodeTruncate_length]; decide) hseq (by rwa [encodeTruncate_length])
  simp only [RaftLog.truncateFrom, if_neg hi, happ]
  exact ⟨_, rfl, rfl, ⟨hst, h.contiguous.cut i⟩, hm.config, hn⟩

theorem compact_spec (h : Healthy log c) {i t : ℕ} (hseq : log.wal.nextSequence < 2 ^ 64)
    (hfit : snapshotRecordSize ≤ log.wal.config.maxSegmentBytes)
    (hi : log.snapshotIndex < i) :
    ∃ log', log.compact i t = (.ok (), log') ∧
      log'.toLogView = log.toLogView.replaySnapshot i t ∧
      Healthy log' (journalled log.wal c i t) ∧
      log'.wal.config = log.wal.config ∧
      log'.wal.nextSequence = log.wal.nextSequence + 1 := by
  obtain ⟨w, hj, hst, hcfg, hn⟩ := journalSnapshot_spec h.stores (i := i) (t := t) hseq hfit
  have hview := h.contiguous.compacted hi
  have hcont := h.contiguous.above (Nat.le_of_lt hi) t
  simp only [RaftLog.compact, if_neg (Nat.not_le.mpr hi), hj]
  refine ⟨_, rfl, ?_, ⟨hst, ?_⟩, hcfg, hn⟩
  · simp only [LogView.replaySnapshot, hview]
  · simpa only [LogView.replaySnapshot, hview] using hcont

theorem installSnapshot_spec (h : Healthy log c) {i t : ℕ}
    (hseq : log.wal.nextSequence < 2 ^ 64)
    (hfit : snapshotRecordSize ≤ log.wal.config.maxSegmentBytes)
    (hi : log.snapshotIndex < i) :
    ∃ log', log.installSnapshot i t = (.ok (), log') ∧
      log'.toLogView = log.toLogView.replaySnapshot i t ∧
      Healthy log' (journalled log.wal c i t) ∧
      log'.wal.config = log.wal.config ∧
      log'.wal.nextSequence = log.wal.nextSequence + 1 := by
  obtain ⟨w, hj, hst, hcfg, hn⟩ := journalSnapshot_spec h.stores (i := i) (t := t) hseq hfit
  simp only [RaftLog.installSnapshot, if_neg (Nat.not_le.mpr hi), hj]
  exact ⟨_, rfl, rfl, ⟨hst, h.contiguous.above (Nat.le_of_lt hi) t⟩, hcfg, hn⟩

theorem open_log_spec (h : Stores w c) :
    ∃ log', RaftLog.open w.config w.dir = .ok log' ∧
      log'.toLogView = replay LogView.empty (c.entries.map Entry.data) ∧
      Stores log'.wal c ∧ log'.wal.config = w.config ∧
      log'.wal.nextSequence ≤ w.nextSequence := by
  obtain ⟨w', hopen, hst, hcfg, _, _, _, hn⟩ := open_spec h
  have hpos := h.numbered.pos
  simp only [RaftLog.open, hopen, hst.readFrom_one]
  refine ⟨_, rfl, rfl, hst, hcfg, ?_⟩
  dsimp only
  rw [hn]
  split <;> omega

theorem open_log_empty (config : WalConfig) :
    ∃ log, RaftLog.open config Dir.empty = .ok log ∧ log.toLogView = LogView.empty ∧
      Healthy log ⟨[], []⟩ ∧ log.wal.config = config ∧ log.wal.nextSequence = 1 := by
  obtain ⟨w, hopen, hst, hcfg, hn, _⟩ := open_empty config
  simp only [RaftLog.open, hopen, hst.readFrom_one]
  exact ⟨_, rfl, rfl, ⟨hst, .empty⟩, hcfg, hn⟩

end ReplicatedLogContents
