import DistributedWal.RaftNodeAgreement

/-! # The tail behind an installed snapshot

`install_snapshot` keeps every entry behind the snapshot, whatever the log had at the
snapshot's index. The tail continues the snapshot if the log had the snapshot's term there.
-/
namespace RaftNodeInstall

open LittleEndianCodec WalSegment WalEngine WalContents ReplicatedLog ReplicatedLogContents
open WalEntry (Crc32 ieee WalError)
open RaftNode RaftNodeAppends RaftNodeAgreement FullLog

/-- The terms do not decrease, from the snapshot's term on. -/
def NonDecreasing (v : LogView) : Prop :=
  (v.snapshotTerm :: v.entries.map LogEntry.term).Pairwise (· ≤ ·)

/-- The order in which `on_request_vote` compares logs: `w` is at least at `(t, i)`. -/
def UpToDate (t i : ℕ) (w : LogView) : Prop :=
  t < w.lastTerm ∨ t = w.lastTerm ∧ i ≤ w.lastIndex

/-- Of the log `v` the log `w` with the snapshot `(i, t)` has kept a tail that continues
the snapshot, or nothing. -/
structure KeepsMatchingTail (v w : LogView) (i t : ℕ) : Prop where
  tail : v.termAt i = some t → w.entries = v.entries.filter (fun e => e.index > i)
  nothing : v.termAt i ≠ some t → w.entries = []
  nonDecreasing : NonDecreasing w
  upToDate : UpToDate t i w

theorem lastTerm_mem (v : LogView) :
    v.lastTerm ∈ v.snapshotTerm :: v.entries.map LogEntry.term := by
  rw [LogView.lastTerm]
  cases hlast : v.entries.getLast? with
  | none => exact List.mem_cons_self ..
  | some e =>
    exact List.mem_cons_of_mem _ (List.mem_map_of_mem (List.mem_of_getLast? hlast))

theorem NonDecreasing.lastTerm {v : LogView} (h : NonDecreasing v) :
    v.snapshotTerm ≤ v.lastTerm := by
  rcases List.mem_cons.mp (lastTerm_mem v) with heq | hmem
  · exact Nat.le_of_eq heq.symm
  · exact (List.pairwise_cons.mp h).1 _ hmem

/-- A log is as up to date as the snapshot that it starts from. -/
theorem NonDecreasing.upToDate {v : LogView} (h : NonDecreasing v) :
    UpToDate v.snapshotTerm v.snapshotIndex v := by
  rcases Nat.lt_or_eq_of_le h.lastTerm with hlt | heq
  · exact Or.inl hlt
  · exact Or.inr ⟨heq, Nat.le_add_right _ _⟩

/-- The tail behind an entry starts from the term of the entry. -/
theorem NonDecreasing.drop {v : LogView} (h : NonDecreasing v) {k : ℕ} {e : LogEntry}
    (he : v.entries[k]? = some e) (i : ℕ) :
    NonDecreasing ⟨v.entries.drop (k + 1), i, e.term⟩ := by
  obtain ⟨hlt, heq⟩ := List.getElem?_eq_some_iff.mp he
  have hdrop : v.entries.drop k = e :: v.entries.drop (k + 1) := by
    rw [List.drop_eq_getElem_cons hlt, heq]
  have htail := (List.pairwise_cons.mp h).2.sublist
    ((List.drop_sublist k v.entries).map LogEntry.term)
  rw [hdrop, List.map_cons] at htail
  exact htail

section

variable [Crc32]

theorem installSnapshot_view {log log' : RaftLog} {i t : ℕ} (hi : log.snapshotIndex < i)
    (h : log.installSnapshot i t = (.ok (), log')) :
    log'.toLogView = log.toLogView.replaySnapshot i t := by
  rw [RaftLog.installSnapshot, if_neg (Nat.not_le.mpr hi)] at h
  split at h
  · cases h
  · cases h
    rfl

/-- An installed snapshot leaves only a matching tail exactly when the log ends at the
snapshot or had its last entry. -/
theorem install_keeps_matching_tail {log log' : RaftLog} {i t : ℕ}
    (hlog : WellFormed log.toLogView) (hterms : NonDecreasing log.toLogView)
    (hi : log.snapshotIndex < i) (hinstall : log.installSnapshot i t = (.ok (), log')) :
    KeepsMatchingTail log.toLogView log'.toLogView i t ↔
      log.lastIndex ≤ i ∨ log.termAt i = some t := by
  have hdrop := hlog.contiguous.filter_above (Nat.le_of_lt hi)
  rw [installSnapshot_view hi hinstall]
  constructor
  · intro h
    by_cases hhas : log.termAt i = some t
    · exact Or.inr hhas
    · left
      have hnone := h.nothing hhas
      rw [LogView.replaySnapshot, hdrop, List.drop_eq_nil_iff] at hnone
      rw [LogView.lastIndex]
      omega
  · intro h
    have hnondecreasing : NonDecreasing (log.toLogView.replaySnapshot i t) := by
      rw [LogView.replaySnapshot, hdrop]
      rcases h with hend | hhas
      · rw [LogView.lastIndex] at hend
        rw [List.drop_eq_nil_of_le (by omega)]
        exact List.pairwise_singleton _ t
      · rw [termAt_above hi] at hhas
        obtain ⟨e, he, rfl⟩ := Option.map_eq_some_iff.mp hhas
        rw [show i - log.snapshotIndex = i - log.snapshotIndex - 1 + 1 by omega]
        exact hterms.drop he i
    constructor
    · intro _
      rfl
    · intro hnot
      have hend := h.resolve_right hnot
      rw [LogView.lastIndex] at hend
      rw [LogView.replaySnapshot, hdrop]
      exact List.drop_eq_nil_of_le (by omega)
    · exact hnondecreasing
    · exact hnondecreasing.upToDate

end

/-- A WAL that takes a record for a new log with any entries. -/
theorem install_ok [Crc32] (v : LogView) (hv : v.Contiguous) {i : ℕ} (t : ℕ)
    (hi : v.snapshotIndex < i) :
    ∃ log log' : RaftLog, log.toLogView = v ∧ log.installSnapshot i t = (.ok (), log') := by
  obtain ⟨log, _, _, hhealthy, hcfg, hseq⟩ := open_log_empty walConfig
  have hhealthy' : Healthy ⟨v, log.wal⟩ ⟨[], []⟩ := ⟨hhealthy.stores, hv⟩
  obtain ⟨log', hinstall, _⟩ := installSnapshot_spec hhealthy' (t := t)
    (Nat.lt_of_le_of_lt (Nat.le_of_eq hseq) (by decide)) (by rw [hcfg]; decide) hi
  exact ⟨⟨v, log.wal⟩, log', rfl, hinstall⟩

/-- The snapshot of an entry that the log has. -/
theorem install_keeps_matching_tail_own_entry :
    ∃ log log' : RaftLog, log.entries = [⟨1, 1, [7]⟩, ⟨1, 2, [8]⟩] ∧
      @RaftLog.installSnapshot ieee log 1 1 = (.ok (), log') ∧
      KeepsMatchingTail log.toLogView log'.toLogView 1 1 := by
  let _ : Crc32 := ieee
  have hc : LogView.Contiguous ⟨[⟨1, 1, [7]⟩, ⟨1, 2, [8]⟩], 0, 0⟩ :=
    (LogView.Contiguous.empty.push 1 [7]).push 1 [8]
  obtain ⟨log, log', hview, hinstall⟩ := install_ok _ hc 1 Nat.zero_lt_one
  have hlog : WellFormed log.toLogView := by
    rw [hview]
    exact ⟨hc, by simp, fun h => absurd h (lt_irrefl 0)⟩
  have hterms : NonDecreasing log.toLogView := by
    rw [hview]
    simp [NonDecreasing]
  refine ⟨log, log', congrArg LogView.entries hview, hinstall, ?_⟩
  apply (install_keeps_matching_tail hlog hterms (by rw [hview]; decide) hinstall).mpr
  rw [hview]
  exact Or.inr rfl

/-- A snapshot of term 2 at index 1 keeps the entry 2 of term 1. -/
theorem install_keeps_conflicting_tail :
    ¬ ∀ (log log' : RaftLog) (i t : ℕ), WellFormed log.toLogView →
      NonDecreasing log.toLogView → log.snapshotIndex < i →
      @RaftLog.installSnapshot ieee log i t = (.ok (), log') →
      KeepsMatchingTail log.toLogView log'.toLogView i t := by
  intro hclaim
  let _ : Crc32 := ieee
  have hc : LogView.Contiguous ⟨[⟨1, 1, [7]⟩, ⟨1, 2, [8]⟩], 0, 0⟩ :=
    (LogView.Contiguous.empty.push 1 [7]).push 1 [8]
  obtain ⟨log, log', hview, hinstall⟩ := install_ok _ hc 2 Nat.zero_lt_one
  have hlog : WellFormed log.toLogView := by
    rw [hview]
    exact ⟨hc, by simp, fun h => absurd h (lt_irrefl 0)⟩
  have hterms : NonDecreasing log.toLogView := by
    rw [hview]
    simp [NonDecreasing]
  have hi : log.snapshotIndex < 1 := by
    rw [hview]
    decide
  have hkeeps := hclaim log log' 1 2 hlog hterms hi hinstall
  have hnone := hkeeps.nothing (by rw [hview]; decide)
  rw [installSnapshot_view hi hinstall, hview] at hnone
  cases hnone

end RaftNodeInstall
