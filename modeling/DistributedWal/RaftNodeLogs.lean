import DistributedWal.RaftNodeHandlers
import DistributedWal.FullLog

/-! # What the handlers do to the log

Each handler is described by the full log before and after it. `R` is what the full log
has to satisfy at every effect of the handler, also in the images that a crash leaves, and
`S` is what a snapshot on disk has to satisfy.
-/
namespace RaftNodeLogs

open LittleEndianCodec WalSegment WalEngine WalContents ReplicatedLog ReplicatedLogContents
open WalEntry (Crc32 WalError headerSize)
open RaftPersistentState RaftSnapshot RaftNode RaftNodeFrame RaftNodeHandlers
open LogMatching FullLog

/-- The record of the entry fits into a segment. -/
def FitsSegment (data : Bytes) : Prop :=
  headerSize + (17 + data.length) ≤ walConfig.maxSegmentBytes

theorem fitsSegment_byte (b : UInt8) : FitsSegment [b] := by
  rw [FitsSegment]
  show headerSize + 18 ≤ walConfig.maxSegmentBytes
  decide

def SnapshotFile (S : Snapshot → Prop) (file : Option Bytes) : Prop :=
  ∀ bytes, file = some bytes → ∃ s : Snapshot, bytes = s.fileBytes ∧ S s

/-- The node with another log. -/
def withLog (n : Node) (log : RaftLog) : Node := { n with log := log }

/-- The node up to its log and the history of its files. -/
def LogOnly (n n' : Node) : Prop :=
  ∃ log trail, n' = { n with log := log, trail := trail }

theorem LogOnly.trans {n₁ n₂ n₃ : Node} (h : LogOnly n₁ n₂) (k : LogOnly n₂ n₃) :
    LogOnly n₁ n₃ := by
  obtain ⟨_, _, rfl⟩ := h
  obtain ⟨log, trail, rfl⟩ := k
  exact ⟨log, trail, rfl⟩

/-- The entry at its place in the log that is taken over, appended. -/
theorem append_next {p : List LogEntry} (hp : Numbered p) {j : ℕ} {e : LogEntry}
    (he : p[j]? = some e) :
    p.take j ++ [⟨e.term, (p.take j).length + 1, e.data⟩] = p.take (j + 1) := by
  have hlt := (List.getElem?_eq_some_iff.mp he).1
  have hindex := hp j e he
  rw [List.take_add_one, he, List.length_take_of_le (Nat.le_of_lt hlt), ← hindex]
  rfl

section

variable [Crc32]

def Opens (dir : Dir) : Prop :=
  ∃ w c, Stores w c ∧ w.dir = dir ∧ w.config = walConfig

/-- What a restart from the image can rely on. -/
structure ImageHolds (R : List LogEntry → Prop) (S : Snapshot → Prop) (img : Image) :
    Prop where
  opens : Opens img.wal
  log : ∃ full, Represents img.view full ∧ R full
  file : SnapshotFile S img.snapshotFile
  covered : 0 < img.view.snapshotIndex → img.snapshotFile ≠ none

structure LogState (R : List LogEntry → Prop) (S : Snapshot → Prop) (n : Node)
    (full : List LogEntry) : Prop where
  healthy : ∃ c, Healthy n.log c
  config : n.log.wal.config = walConfig
  represents : Represents n.log.toLogView full
  now : R full
  file : SnapshotFile S n.snapshotFile
  covered : 0 < n.log.snapshotIndex → n.snapshotFile ≠ none
  images : ∀ img ∈ n.trail, ImageHolds R S img

variable {R : List LogEntry → Prop} {S : Snapshot → Prop} {n : Node} {full : List LogEntry}

theorem LogState.image (h : LogState R S n full) : ImageHolds R S n.image := by
  obtain ⟨c, hc⟩ := h.healthy
  exact ⟨⟨n.log.wal, c, hc.stores, rfl, h.config⟩, ⟨full, h.represents, h.now⟩, h.file,
    h.covered⟩

theorem LogState.mark (h : LogState R S n full) : LogState R S n.mark full := by
  refine ⟨h.healthy, h.config, h.represents, h.now, h.file, h.covered, ?_⟩
  intro img himg
  rcases List.mem_append.mp himg with himg | himg
  · exact h.images img himg
  · obtain rfl := List.mem_singleton.mp himg
    exact h.image

/-- An action begins: what held of earlier effects does not matter. -/
theorem LogState.begin {R' : List LogEntry → Prop} (h : LogState R S n full) (hR : R' full) :
    LogState R' S n.begin full := by
  refine ⟨h.healthy, h.config, h.represents, hR, h.file, h.covered, ?_⟩
  intro img himg
  obtain rfl := List.mem_singleton.mp himg
  obtain ⟨c, hc⟩ := h.healthy
  exact ⟨⟨n.log.wal, c, hc.stores, rfl, h.config⟩, ⟨full, h.represents, hR⟩, h.file,
    h.covered⟩

/-- Changes outside the log and the snapshot file. -/
theorem LogState.frame {n' : Node} (h : LogState R S n full) (hlog : n'.log = n.log)
    (hfile : n'.snapshotFile = n.snapshotFile) (htrail : n'.trail = n.trail) :
    LogState R S n' full :=
  ⟨hlog ▸ h.healthy, hlog ▸ h.config, hlog ▸ h.represents, h.now, hfile ▸ h.file,
    by rw [hlog, hfile]; exact h.covered, htrail ▸ h.images⟩

theorem LogState.weaken {R' : List LogEntry → Prop} {S' : Snapshot → Prop}
    (h : LogState R S n full) (hR : ∀ f, R f → R' f) (hS : ∀ s, S s → S' s) :
    LogState R' S' n full := by
  have hfile : ∀ file, SnapshotFile S file → SnapshotFile S' file := by
    intro file hf bytes hbytes
    obtain ⟨s, hs, hS'⟩ := hf bytes hbytes
    exact ⟨s, hs, hS s hS'⟩
  refine ⟨h.healthy, h.config, h.represents, hR _ h.now, hfile _ h.file, h.covered, ?_⟩
  intro img himg
  obtain ⟨hopens, ⟨f, hf, hRf⟩, himgfile, hcovered⟩ := h.images img himg
  exact ⟨hopens, ⟨f, hf, hR f hRf⟩, hfile _ himgfile, hcovered⟩

theorem appendLog_state (h : LogState R S n full) (term : ℕ) (data : Bytes)
    (hseq : n.log.wal.nextSequence < 2 ^ 64) (hfit : FitsSegment data)
    (hR : R (full ++ [⟨term, full.length + 1, data⟩])) :
    ∃ log', n.appendLog term data = (.ok (full.length + 1), (withLog n log').mark) ∧
      LogState R S (withLog n log').mark (full ++ [⟨term, full.length + 1, data⟩]) ∧
      log'.toLogView = n.log.toLogView.push term data ∧
      log'.wal.nextSequence = n.log.wal.nextSequence + 1 := by
  obtain ⟨c, hc⟩ := h.healthy
  have hlen : 17 + data.length < 2 ^ 32 := by
    have : headerSize + (17 + data.length) ≤ 64 * 1024 * 1024 := hfit
    omega
  obtain ⟨log', happ, hview, hhealthy, hcfg, hn⟩ :=
    append_spec hc term data hseq hlen (by rw [h.config]; exact hfit)
  rw [h.represents.lastIndex] at happ
  refine ⟨log', ?_, ?_, hview, hn⟩
  · simp only [Node.appendLog, happ]
    rfl
  · apply LogState.mark
    refine ⟨⟨_, hhealthy⟩, hcfg.trans h.config, ?_, hR, h.file, ?_, h.images⟩
    · rw [withLog, hview]
      exact h.represents.push term data
    · rw [withLog, hview]
      exact h.covered

/-- An entry that does not fit leaves everything but the WAL as it was. -/
theorem appendLog_refused (h : LogState R S n full) (term : ℕ) (data : Bytes)
    (hfit : ¬ FitsSegment data) :
    ∃ e log', n.appendLog term data = (.error e, (withLog n log').mark) ∧
      LogState R S (withLog n log').mark full ∧
      log'.toLogView = n.log.toLogView ∧
      log'.wal.nextSequence = n.log.wal.nextSequence := by
  obtain ⟨c, hc⟩ := h.healthy
  have hfit : ¬ headerSize + (encodeAppend ⟨term, n.log.lastIndex + 1, data⟩).length ≤
      n.log.wal.config.maxSegmentBytes := by
    rw [encodeAppend_length, h.config]
    exact hfit
  obtain ⟨w, happ, hst, hmarks, hn⟩ := append_rejected hc.stores _ hfit
  generalize WalError.segmentFull 0 _ _ = e at happ
  refine ⟨e, ⟨n.log.toLogView, w⟩, ?_, ?_, rfl, hn⟩
  · simp only [Node.appendLog, RaftLog.append, happ]
    rfl
  · apply LogState.mark
    exact ⟨⟨_, hst, hc.contiguous⟩, hmarks.config.trans h.config, h.represents, h.now, h.file,
      h.covered, h.images⟩

theorem truncateLog_state (h : LogState R S n full) {i : ℕ}
    (hseq : n.log.wal.nextSequence < 2 ^ 64) (hi : n.log.snapshotIndex < i)
    (hlast : i ≤ full.length) (hR : R (full.take (i - 1))) :
    ∃ log', n.truncateLog i = (withLog n log').mark ∧
      LogState R S (withLog n log').mark (full.take (i - 1)) ∧
      log'.toLogView = n.log.toLogView.cut i ∧
      log'.wal.nextSequence = n.log.wal.nextSequence + 1 := by
  obtain ⟨c, hc⟩ := h.healthy
  have hin : ¬ (i ≤ n.log.snapshotIndex ∨ i > n.log.lastIndex) := by
    rw [h.represents.lastIndex]
    omega
  obtain ⟨log', htr, hview, hhealthy, hcfg, hn⟩ :=
    truncateFrom_spec hc hseq (by rw [h.config]; decide) hin
  refine ⟨log', ?_, ?_, hview, hn⟩
  · simp only [Node.truncateLog, htr]
    rfl
  · apply LogState.mark
    refine ⟨⟨_, hhealthy⟩, hcfg.trans h.config, ?_, hR, h.file, ?_, h.images⟩
    · rw [withLog, hview]
      exact h.represents.cut hi
    · rw [withLog, hview]
      exact h.covered

/-- One entry of the request that is at its place and not hidden by the snapshot. -/
theorem storeEntry_state (h : LogState R S n full) {p : List LogEntry} (hp : Numbered p)
    {j : ℕ} {e : LogEntry} (he : p[j]? = some e) (hfront : p.take j <+: full)
    (hagree : Agree LogEntry.term full p) (hclosed : ∀ f, Adopts p full f → R f)
    (hlow : e.index ≤ n.log.snapshotIndex → n.log.termAt e.index = some e.term)
    (hseq : n.log.wal.nextSequence + 2 ≤ 2 ^ 64) (hfit : FitsSegment e.data) :
    ∃ full', LogState R S (n.storeEntry e) full' ∧ Adopts p full full' ∧
      p.take (j + 1) <+: full' ∧
      (n.storeEntry e).log.snapshotIndex = n.log.snapshotIndex ∧
      (n.storeEntry e).log.snapshotTerm = n.log.snapshotTerm ∧
      (n.storeEntry e).log.wal.nextSequence ≤ n.log.wal.nextSequence + 2 := by
  have hlt := (List.getElem?_eq_some_iff.mp he).1
  have hindex : e.index = j + 1 := hp j e he
  have heq := take_eq_of_prefix hfront (Nat.le_of_lt hlt)
  have hnext := append_next hp he
  cases ht : n.log.termAt e.index with
  | some t =>
    obtain ⟨hpos, hpoint, x, hx, hterm⟩ := h.represents.termAt_some ht
    rw [hindex, Nat.add_sub_cancel] at hx
    by_cases hsame : t = e.term
    · have hstay : n.storeEntry e = n := by simp [Node.storeEntry, ht, hsame]
      rw [hstay]
      refine ⟨full, h, .refl, ?_, rfl, rfl, Nat.le_add_right _ _⟩
      rw [← hagree j x e hx he (hterm.trans hsame)]
      exact List.take_prefix _ _
    · have hne : x ≠ e := fun hxe => hsame (by rw [← hterm, hxe])
      have habove : n.log.snapshotIndex < e.index := by
        by_contra hle
        have := hlow (Nat.not_lt.mp hle)
        rw [ht] at this
        exact hsame (Option.some.inj this)
      have hcut := Adopts.cut hx he hne
      have hlen := (List.getElem?_eq_some_iff.mp hx).1
      obtain ⟨log₁, htr, h₁, hview₁, hseq₁⟩ := truncateLog_state h (i := e.index) (by omega)
        habove (by omega) (by
          rw [hindex, Nat.add_sub_cancel, heq]
          exact hclosed _ hcut)
      rw [hindex, Nat.add_sub_cancel, heq] at h₁
      have hseq₁' : (withLog n log₁).mark.log.wal.nextSequence =
        n.log.wal.nextSequence + 1 := hseq₁
      obtain ⟨log₂, happ, h₂, hview₂, hseq₂⟩ := appendLog_state h₁ e.term e.data (by omega)
        hfit (by
          rw [hnext]
          exact hclosed _ (hcut.trans (.grow hlt)))
      have hstore : n.storeEntry e = (withLog (withLog n log₁).mark log₂).mark := by
        simp [Node.storeEntry, ht, hsame, htr, happ]
      have hview : log₂.toLogView = (n.log.toLogView.cut e.index).push e.term e.data := by
        rw [hview₂, ← hview₁]
        rfl
      have hindex' := congrArg LogView.snapshotIndex hview
      have hterm' := congrArg LogView.snapshotTerm hview
      rw [hnext] at h₂
      rw [hstore]
      refine ⟨_, h₂, hcut.trans (.grow hlt), List.prefix_refl _, hindex', hterm', ?_⟩
      exact Nat.le_of_eq (hseq₂.trans (congrArg (· + 1) hseq₁))
  | none =>
    have habove : n.log.snapshotIndex < e.index := by
      by_contra hle
      have := hlow (Nat.not_lt.mp hle)
      rw [ht] at this
      cases this
    rw [h.represents.termAt (by omega) (Nat.le_of_lt habove), hindex, Nat.add_sub_cancel,
      Option.map_eq_none_iff, List.getElem?_eq_none_iff] at ht
    -- the log ends right before the entry
    have hfull : full = p.take j := by
      rw [← heq, List.take_of_length_le ht]
    obtain ⟨log₁, happ, h₁, hview₁, hseq₁⟩ := appendLog_state h e.term e.data (by omega) hfit
      (by
        rw [hfull, hnext]
        exact hclosed _ (hfull ▸ .grow hlt))
    have hstore : n.storeEntry e = (withLog n log₁).mark := by
      have hnone : n.log.termAt e.index = none := by
        rw [h.represents.termAt (by omega) (Nat.le_of_lt habove), hindex, Nat.add_sub_cancel,
          Option.map_eq_none_iff, List.getElem?_eq_none_iff]
        exact ht
      simp [Node.storeEntry, hnone, happ]
    have hview : (withLog n log₁).mark.log.toLogView =
        n.log.toLogView.push e.term e.data := hview₁
    have hindex' := congrArg LogView.snapshotIndex hview
    have hterm' := congrArg LogView.snapshotTerm hview
    rw [hfull, hnext] at h₁
    rw [hstore]
    refine ⟨_, h₁, hfull ▸ .grow hlt, List.prefix_refl _, hindex', hterm', ?_⟩
    exact (Nat.le_of_eq hseq₁).trans (Nat.le_succ _)

theorem storeEntries_state (h : LogState R S n full) {p : List LogEntry} (hp : Numbered p)
    {j : ℕ} {entries : List LogEntry} (hentries : entries = p.drop j)
    (hfront : p.take j <+: full) (hagree : Agree LogEntry.term full p)
    (hclosed : ∀ f, Adopts p full f → R f)
    (hlow : ∀ e ∈ entries, e.index ≤ n.log.snapshotIndex → n.log.termAt e.index = some e.term)
    (hseq : n.log.wal.nextSequence + 2 * entries.length ≤ 2 ^ 64)
    (hfit : ∀ e ∈ entries, FitsSegment e.data) :
    ∃ full', LogState R S (n.storeEntries entries) full' ∧ Adopts p full full' ∧
      p <+: full' := by
  induction entries generalizing n full j with
  | nil =>
    have hlen : p.length ≤ j := List.drop_eq_nil_iff.mp hentries.symm
    rw [List.take_of_length_le hlen] at hfront
    exact ⟨full, h, .refl, hfront⟩
  | cons e es ih =>
    have hlt : j < p.length := by
      by_contra hle
      rw [List.drop_eq_nil_of_le (Nat.not_lt.mp hle)] at hentries
      cases hentries
    rw [List.drop_eq_getElem_cons hlt] at hentries
    obtain ⟨rfl, hes⟩ := List.cons.inj hentries
    rw [List.length_cons] at hseq
    obtain ⟨full₁, h₁, hadopt₁, hfront₁, hindex, hterm, hseq₁⟩ :=
      storeEntry_state h hp (List.getElem?_eq_getElem hlt) hfront hagree hclosed
        (hlow _ (List.mem_cons_self ..)) (by omega) (hfit _ (List.mem_cons_self ..))
    obtain ⟨full₂, h₂, hadopt₂, hall⟩ := ih h₁ hes hfront₁ (hadopt₁.agree hagree)
      (fun f hf => hclosed f (hadopt₁.trans hf))
      (by
        intro e he hle
        rw [hindex] at hle
        rw [termAt_hidden hindex hterm hle]
        exact hlow e (List.mem_cons_of_mem _ he) hle)
      (by omega) (fun e he => hfit e (List.mem_cons_of_mem _ he))
    exact ⟨full₂, h₂, hadopt₁.trans hadopt₂, hall⟩

theorem storeEntries_logOnly (n : Node) (entries : List LogEntry) :
    LogOnly n (n.storeEntries entries) := by
  induction entries generalizing n with
  | nil => exact ⟨n.log, n.trail, rfl⟩
  | cons e es ih =>
    have hstep : LogOnly n (n.storeEntry e) := by
      rw [Node.storeEntry]
      split
      · split
        · exact ⟨n.log, n.trail, rfl⟩
        · exact ⟨_, _, rfl⟩
      · exact ⟨_, _, rfl⟩
    exact hstep.trans (ih _)

theorem acceptLeader_state (h : LogState R S n full) (term : ℕ) (leader : NodeId) :
    LogState R S (n.acceptLeader term leader) full := by
  rw [Node.acceptLeader]
  split
  · have hadv : LogState R S (n.advanceTerm term) full :=
      LogState.mark (h.frame rfl rfl rfl)
    exact hadv.frame rfl rfl rfl
  · exact h.frame rfl rfl rfl

end

/-- The request is not stale and its previous entry is there. -/
def Passes (n : Node) (req : AppendEntriesRequest) : Prop :=
  n.ps.currentTerm ≤ req.term ∧
    (0 < req.prevLogIndex → n.log.termAt req.prevLogIndex = some req.prevLogTerm)

/-- No entry of a request that passes is hidden by the snapshot. -/
def AboveSnapshot (n : Node) (req : AppendEntriesRequest) : Prop :=
  Passes n req → ∀ e ∈ req.entries, e.index ≤ n.log.snapshotIndex →
    n.log.termAt e.index = some e.term

/-- An installation keeps entries behind the snapshot only where the log has the
snapshot's last entry. -/
def KeepsMatchingTail (n : Node) (req : InstallSnapshotRequest) : Prop :=
  n.ps.currentTerm ≤ req.term → n.log.snapshotIndex < req.lastIncludedIndex →
    n.log.lastIndex ≤ req.lastIncludedIndex ∨
      n.log.termAt req.lastIncludedIndex = some req.lastIncludedTerm

def snapshotOf (req : InstallSnapshotRequest) : Snapshot :=
  ⟨req.lastIncludedIndex, req.lastIncludedTerm, req.data⟩

/-- The request comes from a leader whose log was `p`. -/
structure Carries (req : AppendEntriesRequest) (p : List LogEntry) : Prop where
  numbered : Numbered p
  entries : req.entries = p.drop req.prevLogIndex
  prev : req.prevLogIndex ≤ p.length
  prevTerm : 0 < req.prevLogIndex →
    lastTermOf (p.take req.prevLogIndex) = req.prevLogTerm
  fits : ∀ e ∈ p, FitsSegment e.data

/-- A request that passes finds the log of its leader up to the previous entry. -/
theorem Carries.front {req : AppendEntriesRequest} {p full : List LogEntry} {v : LogView}
    (hreq : Carries req p) (hrep : Represents v full) (hagree : Agree LogEntry.term full p)
    (hpass : 0 < req.prevLogIndex → v.termAt req.prevLogIndex = some req.prevLogTerm) :
    p.take req.prevLogIndex <+: full := by
  by_cases hzero : req.prevLogIndex = 0
  · rw [hzero]
    exact List.nil_prefix
  have hpos := Nat.pos_of_ne_zero hzero
  obtain ⟨_, _, x, hx, hterm⟩ := hrep.termAt_some (hpass hpos)
  obtain ⟨y, hy⟩ : ∃ y, p[req.prevLogIndex - 1]? = some y := by
    have := hreq.prev
    exact ⟨_, List.getElem?_eq_getElem (by omega)⟩
  have hlast := lastTermOf_take hy
  have heq := hagree _ x y hx hy
  rw [Nat.sub_add_cancel hpos] at hlast heq
  rw [hreq.prevTerm hpos] at hlast
  rw [← heq (hterm.trans hlast)]
  exact List.take_prefix _ _

theorem checkPrevious_rejects {n : Node} {req : AppendEntriesRequest}
    {resp : AppendEntriesResponse} (h : n.checkPrevious req = some resp) :
    resp.success = false ∧ resp.term = n.ps.currentTerm := by
  rw [Node.checkPrevious] at h
  split at h
  · split at h
    · cases h
      exact ⟨rfl, rfl⟩
    · split at h
      · cases h
        exact ⟨rfl, rfl⟩
      · cases h
  · cases h

theorem checkPrevious_iff (n : Node) (req : AppendEntriesRequest) :
    n.checkPrevious req = none ↔
      (0 < req.prevLogIndex → n.log.termAt req.prevLogIndex = some req.prevLogTerm) := by
  rw [Node.checkPrevious]
  split
  · rename_i hpos
    cases ht : n.log.termAt req.prevLogIndex with
    | none => simp [hpos]
    | some t =>
      by_cases heq : t = req.prevLogTerm
      · simp [heq]
      · simp [heq, hpos]
  · rename_i hpos
    simp only [true_iff]
    intro h
    exact absurd h hpos

section

variable [Crc32]

/-- A request is refused, and at most the term and the leader are taken over, or it
passes and its entries are stored. -/
theorem onAppendEntries_cases (n : Node) (req : AppendEntriesRequest) :
    (n.onAppendEntries req).1.term = (n.onAppendEntries req).2.ps.currentTerm ∧
    (¬ Passes n req ∧ (n.onAppendEntries req).1.success = false ∧
        ((n.onAppendEntries req).2 = n ∨
          (n.onAppendEntries req).2 = n.acceptLeader req.term req.leaderId) ∨
      Passes n req ∧ (n.onAppendEntries req).1.success = true ∧
        (n.onAppendEntries req).2 =
          { (n.acceptLeader req.term req.leaderId).storeEntries req.entries with
            commitIndex :=
              if req.leaderCommit > n.commitIndex then
                min req.leaderCommit
                  ((n.acceptLeader req.term req.leaderId).storeEntries
                    req.entries).log.lastIndex
              else n.commitIndex }) := by
  obtain ⟨hlog, hcommit, _⟩ := acceptLeader_log n req.term req.leaderId
  obtain ⟨log, trail, hstore⟩ :=
    storeEntries_logOnly (n.acceptLeader req.term req.leaderId) req.entries
  rw [Node.onAppendEntries]
  split
  · rename_i hlt
    exact ⟨rfl, Or.inl ⟨fun h => by have := h.1; omega, rfl, Or.inl rfl⟩⟩
  · rename_i hle
    dsimp only
    cases hprev : (n.acceptLeader req.term req.leaderId).checkPrevious req with
    | some resp =>
      obtain ⟨hno, hterm⟩ := checkPrevious_rejects hprev
      refine ⟨hterm, Or.inl ⟨fun h => ?_, hno, Or.inr rfl⟩⟩
      have := (checkPrevious_iff (n.acceptLeader req.term req.leaderId) req).mpr
        (hlog ▸ h.2)
      rw [hprev] at this
      cases this
    | none =>
      have hpass := (checkPrevious_iff _ req).mp hprev
      rw [hlog] at hpass
      dsimp only
      refine ⟨rfl, Or.inr ⟨⟨Nat.not_lt.mp hle, hpass⟩, rfl, ?_⟩⟩
      rw [show ((n.acceptLeader req.term req.leaderId).storeEntries
        req.entries).commitIndex = n.commitIndex from by rw [hstore]; exact hcommit]
      split
      · rfl
      · rw [hstore]
        rw [← hcommit]

/-- A request that passes. -/
theorem onAppendEntries_state (h : LogState R S n full) {req : AppendEntriesRequest}
    (hpass : Passes n req) {p : List LogEntry} (hreq : Carries req p)
    (hagree : Agree LogEntry.term full p) (hclosed : ∀ f, Adopts p full f → R f)
    (hlow : AboveSnapshot n req)
    (hseq : n.log.wal.nextSequence + 2 * req.entries.length ≤ 2 ^ 64) :
    ∃ full', LogState R S (n.onAppendEntries req).2 full' ∧ Adopts p full full' ∧
      p <+: full' := by
  have hacc := acceptLeader_state h req.term req.leaderId
  obtain ⟨hlog, hcommit, _⟩ := acceptLeader_log n req.term req.leaderId
  obtain ⟨_, ⟨hnot, _⟩ | ⟨_, _, hn⟩⟩ := onAppendEntries_cases n req
  · exact absurd hpass hnot
  · have hfits : ∀ e ∈ req.entries, FitsSegment e.data := by
      intro e he
      rw [hreq.entries] at he
      exact hreq.fits e (List.mem_of_mem_drop he)
    obtain ⟨full', hst, hadopt, hall⟩ := storeEntries_state hacc hreq.numbered hreq.entries
      (hreq.front h.represents hagree hpass.2) hagree hclosed
      (by
        rw [hlog]
        exact hlow hpass)
      (by
        rw [hlog]
        exact hseq) hfits
    refine ⟨full', ?_, hadopt, hall⟩
    rw [hn]
    exact hst.frame rfl rfl rfl

theorem saveSnapshot_state (h : LogState R S n full) {s : Snapshot} (hs : S s) :
    LogState R S (n.saveSnapshot s) full := by
  apply LogState.mark
  refine ⟨h.healthy, h.config, h.represents, h.now, ?_, by simp, h.images⟩
  intro bytes hbytes
  cases hbytes
  exact ⟨s, rfl, hs⟩

/-- The snapshot point has moved, with the images of the way there. -/
def withJournal (n : Node) (log : RaftLog) (i t : ℕ) : Node :=
  { n with log := log, trail := n.trail ++ n.journalTrail i t log.toLogView }

theorem journal_state (h : LogState R S n full) {i t : ℕ} {log' : RaftLog}
    {full' : List LogEntry} (hseq : n.log.wal.nextSequence < 2 ^ 64)
    (hlog : ∃ c, Healthy log' c) (hcfg : log'.wal.config = walConfig)
    (hrep : Represents log'.toLogView full') (hR : R full')
    (hfile : n.snapshotFile ≠ none) : LogState R S (withJournal n log' i t) full' := by
  refine ⟨hlog, hcfg, hrep, hR, h.file, fun _ => hfile, ?_⟩
  intro img himg
  rcases List.mem_append.mp himg with himg | himg
  · exact h.images img himg
  · rw [Node.journalTrail] at himg
    split at himg
    · cases himg
    · obtain ⟨d, hd, rfl⟩ := List.mem_map.mp himg
      obtain ⟨c, hc⟩ := h.healthy
      obtain ⟨w, k, _, hst, hdir, hcfg'⟩ := journalImages_stores hc.stores hseq
        (by rw [h.config]; decide) hd
      exact ⟨⟨w, _, hst, hdir, hcfg'.trans h.config⟩, ⟨full', hrep, hR⟩, h.file,
        fun _ => hfile⟩

theorem installLog_state (h : LogState R S n full) {p : List LogEntry} {i t : ℕ}
    (hp : StandsFor i t p) (hagree : Agree LogEntry.term full p)
    (hclosed : ∀ f, Adopts p full f → R f) (hseq : n.log.wal.nextSequence < 2 ^ 64)
    (hi : n.log.snapshotIndex < i)
    (htail : n.log.lastIndex ≤ i ∨ n.log.termAt i = some t)
    (hfile : n.snapshotFile ≠ none) :
    ∃ log' full', n.installLog i t = (.ok (), (withJournal n log' i t).mark) ∧
      LogState R S (withJournal n log' i t).mark full' ∧ Adopts p full full' ∧
      p <+: full' ∧ log'.snapshotIndex = i := by
  obtain ⟨c, hc⟩ := h.healthy
  obtain ⟨log', hinstall, hview, hhealthy, hcfg, _⟩ := installSnapshot_spec hc (t := t) hseq
    (by rw [h.config]; decide) hi
  obtain ⟨full', hrep, hadopt, hall⟩ := h.represents.install hp hagree hi htail
  refine ⟨log', full', ?_, ?_, hadopt, hall, ?_⟩
  · simp only [Node.installLog, hinstall]
    rfl
  · apply LogState.mark
    exact journal_state h hseq ⟨_, hhealthy⟩ (hcfg.trans h.config) (hview ▸ hrep)
      (hclosed full' hadopt) hfile
  · rw [hview]
    rfl

theorem compactLog_state (h : LogState R S n full) {i : ℕ} {e : LogEntry}
    (hseq : n.log.wal.nextSequence < 2 ^ 64) (hi : n.log.snapshotIndex < i)
    (he : full[i - 1]? = some e) (hfile : n.snapshotFile ≠ none) :
    ∃ log', n.compactLog i e.term = (.ok (), (withJournal n log' i e.term).mark) ∧
      LogState R S (withJournal n log' i e.term).mark full ∧ log'.snapshotIndex = i := by
  obtain ⟨c, hc⟩ := h.healthy
  obtain ⟨log', hcompact, hview, hhealthy, hcfg, _⟩ := compact_spec hc (t := e.term) hseq
    (by rw [h.config]; decide) hi
  refine ⟨log', ?_, ?_, ?_⟩
  · simp only [Node.compactLog, hcompact]
    rfl
  · apply LogState.mark
    exact journal_state h hseq ⟨_, hhealthy⟩ (hcfg.trans h.config)
      (hview ▸ h.represents.snapshot hi he) h.now hfile
  · rw [hview]
    rfl

/-- The log continues from the snapshot. -/
theorem onInstallSnapshot_state (h : LogState R S n full) {req : InstallSnapshotRequest}
    (hterm : n.ps.currentTerm ≤ req.term) (hi : n.log.snapshotIndex < req.lastIncludedIndex)
    {p : List LogEntry} (hp : StandsFor req.lastIncludedIndex req.lastIncludedTerm p)
    (hagree : Agree LogEntry.term full p) (hclosed : ∀ f, Adopts p full f → R f)
    (hsnap : S (snapshotOf req)) (htail : KeepsMatchingTail n req)
    (hseq : n.log.wal.nextSequence < 2 ^ 64) :
    ∃ full', LogState R S (n.onInstallSnapshot req).2 full' ∧ Adopts p full full' ∧
      p <+: full' ∧
      (n.onInstallSnapshot req).2.commitIndex = max n.commitIndex req.lastIncludedIndex ∧
      (n.onInstallSnapshot req).2.snapshot = some (snapshotOf req) := by
  have hacc := acceptLeader_state h req.term req.leaderId
  obtain ⟨hlog, hcommit, _⟩ := acceptLeader_log n req.term req.leaderId
  have hkeep := htail hterm hi
  rw [← hlog] at hi hkeep hseq
  obtain ⟨log', full', hinstall, hst, hadopt, hall, _⟩ :=
    installLog_state (saveSnapshot_state hacc hsnap) hp hagree hclosed hseq hi hkeep
      (by simp [Node.saveSnapshot, Node.mark])
  have hinstall : ((n.acceptLeader req.term req.leaderId).saveSnapshot
      ⟨req.lastIncludedIndex, req.lastIncludedTerm, req.data⟩).installLog
      req.lastIncludedIndex req.lastIncludedTerm = _ := hinstall
  rw [Node.onInstallSnapshot, if_neg (Nat.not_lt.mpr hterm)]
  dsimp only
  rw [if_neg (Nat.not_le.mpr hi), hinstall]
  refine ⟨full', hst.frame rfl rfl rfl, hadopt, hall, ?_, rfl⟩
  dsimp only
  rw [← hcommit]
  rfl

theorem takeSnapshot_state (h : LogState R S n full) {e : LogEntry}
    (hseq : n.log.wal.nextSequence < 2 ^ 64) (hi : n.log.snapshotIndex < n.commitIndex)
    (he : full[n.commitIndex - 1]? = some e)
    (hsnap : S ⟨n.commitIndex, e.term,
      encodeEntries ((full.take n.commitIndex).drop n.log.snapshotIndex)⟩) :
    LogState R S n.takeSnapshot.2 full ∧ n.takeSnapshot.2.commitIndex = n.commitIndex ∧
      n.takeSnapshot.2.log.lastIndex = n.log.lastIndex ∧
      n.takeSnapshot.2.snapshot = some ⟨n.commitIndex, e.term,
        encodeEntries ((full.take n.commitIndex).drop n.log.snapshotIndex)⟩ := by
  have hpos : n.commitIndex ≠ 0 := by omega
  have hterm : (n.log.termAt n.commitIndex).getD n.log.snapshotTerm = e.term := by
    rw [h.represents.termAt (by omega) (Nat.le_of_lt hi), he]
    rfl
  have hdata := h.represents.retained n.commitIndex
  have hsaved := saveSnapshot_state h hsnap
  obtain ⟨log', hcompact, hst, _⟩ := compactLog_state hsaved hseq hi he
    (by simp [Node.saveSnapshot, Node.mark])
  have htake : n.takeSnapshot.2 = { (withJournal (n.saveSnapshot ⟨n.commitIndex, e.term,
      encodeEntries ((full.take n.commitIndex).drop n.log.snapshotIndex)⟩) log'
      n.commitIndex e.term).mark with
      entriesSinceSnapshot := 0
      snapshot := some ⟨n.commitIndex, e.term,
        encodeEntries ((full.take n.commitIndex).drop n.log.snapshotIndex)⟩ } := by
    rw [Node.takeSnapshot, if_neg hpos]
    dsimp only
    rw [hterm, hdata, hcompact]
  rw [htake]
  refine ⟨hst.frame rfl rfl rfl, rfl, ?_, rfl⟩
  rw [h.represents.lastIndex]
  exact hst.represents.lastIndex

theorem commitWrite_state (h : LogState R S n full) {index : ℕ} {e : LogEntry} (acks : ℕ)
    (hseq : n.log.wal.nextSequence < 2 ^ 64) (hi : n.log.snapshotIndex < index)
    (he : full[index - 1]? = some e)
    (hsnap : n.quorum ≤ acks → S ⟨index, e.term,
      encodeEntries ((full.take index).drop n.log.snapshotIndex)⟩) :
    LogState R S (n.commitWrite index acks).2 full ∧
      ((n.commitWrite index acks).2.commitIndex = n.commitIndex ∧
          (n.commitWrite index acks).1 = .error .quorumNotReached ∨
        (n.commitWrite index acks).2.commitIndex = index ∧ n.quorum ≤ acks ∧
          (n.commitWrite index acks).1 = .ok index) ∧
      ((n.commitWrite index acks).2.snapshot = n.snapshot ∧
          (n.commitWrite index acks).2.log = n.log ∨
        (n.commitWrite index acks).2.snapshot = some ⟨index, e.term,
          encodeEntries ((full.take index).drop n.log.snapshotIndex)⟩) := by
  rw [Node.commitWrite]
  split
  · exact ⟨h, Or.inl ⟨rfl, rfl⟩, Or.inl ⟨rfl, rfl⟩⟩
  · rename_i hacks
    have hq := Nat.not_lt.mp hacks
    have hcount : LogState R S { n with
        commitIndex := index
        entriesSinceSnapshot := n.entriesSinceSnapshot + 1 } full := h.frame rfl rfl rfl
    dsimp only
    split
    · obtain ⟨hst, hcommit, _, hsnapshot⟩ := takeSnapshot_state hcount hseq hi he (hsnap hq)
      exact ⟨hst, Or.inr ⟨hcommit, hq, rfl⟩, Or.inr hsnapshot⟩
    · exact ⟨hcount, Or.inr ⟨rfl, hq, rfl⟩, Or.inl ⟨rfl, rfl⟩⟩

theorem startWrite_state (h : LogState R S n full) {data : Bytes}
    (hseq : n.log.wal.nextSequence < 2 ^ 64) (hrole : n.role = .leader)
    (hfit : FitsSegment data)
    (hR : R (full ++ [⟨n.ps.currentTerm, full.length + 1, data⟩])) :
    (n.startWrite data).1 = .ok (full.length + 1) ∧
      LogState R S (n.startWrite data).2
        (full ++ [⟨n.ps.currentTerm, full.length + 1, data⟩]) := by
  obtain ⟨log', happ, hst, _⟩ := appendLog_state h n.ps.currentTerm data hseq hfit hR
  have hstart : n.startWrite data = (.ok (full.length + 1), (withLog n log').mark) := by
    simp [Node.startWrite, hrole, happ]
  rw [hstart]
  exact ⟨rfl, hst⟩

theorem startWrite_refused (h : LogState R S n full) {data : Bytes}
    (hnot : ¬ (n.role = .leader ∧ FitsSegment data)) :
    (∃ e, (n.startWrite data).1 = .error e) ∧ LogState R S (n.startWrite data).2 full := by
  by_cases hrole : n.role = .leader
  · obtain ⟨e, log', happ, hst, _⟩ := appendLog_refused h n.ps.currentTerm data
      (fun hfit => hnot ⟨hrole, hfit⟩)
    have hstart : n.startWrite data = (.error (.wal e), (withLog n log').mark) := by
      simp [Node.startWrite, hrole, happ]
    rw [hstart]
    exact ⟨⟨_, rfl⟩, hst⟩
  · have hstart : n.startWrite data = (.error (.notLeader n.currentLeader), n) := by
      simp [Node.startWrite, hrole]
    rw [hstart]
    exact ⟨⟨_, rfl⟩, h⟩

/-- A node on stored records has the log that they replay to. -/
theorem start_stores {w : Wal} {c : Contents} {stateFile snapshotFile : Option Bytes} {id : NodeId}
    {peers : List NodeId} (h : Stores w c) (hcfg : w.config = walConfig)
    (hstart : Node.start id peers stateFile w.dir snapshotFile = .ok n) :
    Stores n.log.wal c ∧ n.log.wal.config = walConfig ∧
      n.log.toLogView = replay LogView.empty (c.entries.map WalEntry.Entry.data) ∧
      Started id peers stateFile snapshotFile n.log n := by
  obtain ⟨log, hopen, hn⟩ := start_cases hstart
  obtain ⟨log', hopen', hview, hst, hcfg', _⟩ := open_log_spec h
  rw [hcfg, hopen] at hopen'
  cases hopen'
  have hlog := hn.log
  subst hlog
  exact ⟨hst, hcfg'.trans hcfg, hview, hn⟩

/-- A node without files. -/
theorem start_empty {id : NodeId} {peers : List NodeId}
    (hstart : Node.start id peers none Dir.empty none = .ok n) :
    n.log.toLogView = LogView.empty ∧ Healthy n.log ⟨[], []⟩ ∧ n.log.wal.config = walConfig ∧
      Started id peers none none n.log n := by
  obtain ⟨log, hopen, hn⟩ := start_cases hstart
  obtain ⟨log', hopen', hview, hhealthy, hcfg, _⟩ := open_log_empty walConfig
  rw [hopen] at hopen'
  cases hopen'
  have hlog := hn.log
  subst hlog
  exact ⟨hview, hhealthy, hcfg, hn⟩

/-- The files of the image replay to the log that the node had. -/
def Reopens (img : Image) : Prop :=
  ∀ log, RaftLog.open walConfig img.wal = .ok log → log.toLogView = img.view

theorem start_state {img : Image} {id : NodeId} {peers : List NodeId}
    (h : ImageHolds R S img) (hreopens : Reopens img)
    (hstart : Node.start id peers img.stateFile img.wal img.snapshotFile = .ok n) :
    ∃ full, LogState R S n full ∧ Represents img.view full ∧
      Started id peers img.stateFile img.snapshotFile n.log n := by
  obtain ⟨⟨w, c, hst, hdir, hcfg⟩, ⟨full, hrep, hR⟩, hfile, hcovered⟩ := h
  obtain ⟨log, hopen, hstarted⟩ := start_cases hstart
  have hview := hreopens log hopen
  rw [← hstarted.log] at hview
  rw [← hdir] at hstart
  obtain ⟨hst', hcfg', _, hn⟩ := start_stores hst hcfg hstart
  refine ⟨full, ⟨⟨c, hst', ?_⟩, hcfg', hview ▸ hrep, hR, ?_, ?_, ?_⟩, hrep, hn⟩
  · rw [hview]
    exact hrep.contiguous
  · rw [hn.snapshotFile]
    exact hfile
  · rw [hn.snapshotFile, hview]
    exact hcovered
  · rw [hn.trail]
    simp

end

end RaftNodeLogs
