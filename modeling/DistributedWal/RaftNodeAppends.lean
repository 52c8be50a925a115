import DistributedWal.LogMerge
import DistributedWal.RaftNodeLogs

/-! # What a follower stores

The loop of `on_append_entries` on the view of the log. An entry behind the snapshot
point goes to its place or is there already; the loop merges the request into the log.
An entry at or below the snapshot point goes to the end, unless it is the snapshot's own.
-/
namespace RaftNodeAppends

open LittleEndianCodec WalSegment WalEngine WalContents ReplicatedLog ReplicatedLogContents
open WalEntry (Crc32 WalError headerSize)
open RaftPersistentState RaftSnapshot RaftNode RaftNodeHandlers RaftNodeLogs LogMerge

/-- Rule 4 for one entry, while the WAL takes every record. -/
def store (v : LogView) (e : LogEntry) : LogView :=
  match v.termAt e.index with
  | some t =>
    if t = e.term then v
    else (if e.index ≤ v.snapshotIndex then v else v.cut e.index).push e.term e.data
  | none => v.push e.term e.data

def storeAll (v : LogView) (entries : List LogEntry) : LogView := entries.foldl store v

theorem store_snapshotIndex (v : LogView) (e : LogEntry) :
    (store v e).snapshotIndex = v.snapshotIndex := by
  rw [store]
  split
  · split
    · rfl
    · split <;> rfl
  · rfl

theorem storeAll_snapshotIndex (v : LogView) (entries : List LogEntry) :
    (storeAll v entries).snapshotIndex = v.snapshotIndex := by
  induction entries generalizing v with
  | nil => rfl
  | cons e entries ih => exact (ih (store v e)).trans (store_snapshotIndex v e)

/-- The entries are numbered from `i` on. -/
def Consecutive (i : ℕ) (entries : List LogEntry) : Prop :=
  ∀ k e, entries[k]? = some e → e.index = i + k

/-- The entry that the log keeps at an index. -/
def entryAt (v : LogView) (i : ℕ) : Option LogEntry :=
  if i ≤ v.snapshotIndex then none else v.entries[i - v.snapshotIndex - 1]?

@[simp] theorem storeAll_nil (v : LogView) : storeAll v [] = v := rfl

@[simp] theorem storeAll_cons (v : LogView) (e : LogEntry) (entries : List LogEntry) :
    storeAll v (e :: entries) = storeAll (store v e) entries := rfl

@[simp] theorem storeAll_append (v : LogView) (es fs : List LogEntry) :
    storeAll v (es ++ fs) = storeAll (storeAll v es) fs := List.foldl_append

theorem consecutive_singleton (e : LogEntry) : Consecutive e.index [e] := by
  intro k x hx
  rw [List.getElem?_singleton] at hx
  split at hx
  · rename_i hk
    cases hx
    rw [hk, Nat.add_zero]
  · cases hx

theorem Consecutive.head {i : ℕ} {e : LogEntry} {entries : List LogEntry}
    (h : Consecutive i (e :: entries)) : e.index = i := h 0 e rfl

theorem Consecutive.tail {i : ℕ} {e : LogEntry} {entries : List LogEntry}
    (h : Consecutive i (e :: entries)) : Consecutive (i + 1) entries := by
  intro k x hx
  have := h (k + 1) x hx
  omega

theorem Consecutive.drop {i : ℕ} {entries : List LogEntry} (h : Consecutive i entries)
    (n : ℕ) : Consecutive (i + n) (entries.drop n) := by
  intro k e he
  rw [List.getElem?_drop] at he
  have := h _ e he
  omega

theorem Consecutive.mem {i : ℕ} {entries : List LogEntry} (h : Consecutive i entries)
    {e : LogEntry} (he : e ∈ entries) :
    i ≤ e.index ∧ e.index < i + entries.length ∧ entries[e.index - i]? = some e := by
  obtain ⟨k, hk⟩ := List.mem_iff_getElem?.mp he
  have hlt := (List.getElem?_eq_some_iff.mp hk).1
  have hindex := h k e hk
  refine ⟨by omega, by omega, ?_⟩
  rw [hindex, Nat.add_sub_cancel_left]
  exact hk

theorem contiguous_consecutive {v : LogView} (h : v.Contiguous) :
    Consecutive (v.snapshotIndex + 1) v.entries := h

theorem termAt_above {v : LogView} {i : ℕ} (hi : v.snapshotIndex < i) :
    v.termAt i = (v.entries[i - v.snapshotIndex - 1]?).map LogEntry.term := by
  rw [LogView.termAt, if_neg (by omega), if_neg (by omega), if_neg (by omega)]

theorem termAt_le_last {v : LogView} {i t : ℕ} (h : v.termAt i = some t) : i ≤ v.lastIndex := by
  rw [LogView.termAt] at h
  rw [LogView.lastIndex]
  split at h
  · cases h
  · split at h
    · omega
    · split at h
      · cases h
      · obtain ⟨e, he, _⟩ := Option.map_eq_some_iff.mp h
        have := (List.getElem?_eq_some_iff.mp he).1
        omega

theorem termAt_beyond {v : LogView} {i : ℕ} (hi : v.lastIndex < i) : v.termAt i = none := by
  cases ht : v.termAt i with
  | none => rfl
  | some t => exact absurd (termAt_le_last ht) (Nat.not_le.mpr hi)

/-- The loop on consecutive entries that start behind the snapshot point and leave no
gap behind the log. -/
theorem storeAll_merge {v : LogView} {i : ℕ} {entries : List LogEntry}
    (hi : v.snapshotIndex < i) (hlast : i ≤ v.lastIndex + 1) (hes : Consecutive i entries) :
    storeAll v entries =
      { v with entries := v.entries.take (i - v.snapshotIndex - 1) ++
          merge LogEntry.term (v.entries.drop (i - v.snapshotIndex - 1)) entries } := by
  induction entries generalizing v i with
  | nil =>
    rw [merge_nil, List.take_append_drop]
    rfl
  | cons e entries ih =>
    have hindex := hes.head
    have hnext := hes.tail
    rw [LogView.lastIndex] at hlast
    rw [storeAll_cons, store, hindex, termAt_above hi]
    set k := i - v.snapshotIndex - 1 with hk
    have hsucc : i + 1 - v.snapshotIndex - 1 = k + 1 := by omega
    cases hx : v.entries[k]? with
    | some x =>
      have hlt := (List.getElem?_eq_some_iff.mp hx).1
      have hdrop : v.entries.drop k = x :: v.entries.drop (k + 1) := by
        rw [List.drop_eq_getElem_cons hlt, (List.getElem?_eq_some_iff.mp hx).2]
      have htake : v.entries.take (k + 1) = v.entries.take k ++ [x] := by
        rw [List.take_add_one, hx]
        rfl
      dsimp only [Option.map_some]
      rw [hdrop, merge]
      by_cases hterm : x.term = e.term
      · rw [if_pos hterm, if_pos hterm, ih (by omega) (by rw [LogView.lastIndex]; omega) hnext,
          hsucc, htake, List.append_assoc]
        rfl
      · have hfull : (v.cut i).push e.term e.data =
            { v with entries := v.entries.take k ++ [e] } := by
          have hlen : (v.entries.take k).length = k := by
            rw [List.length_take]
            omega
          simp only [LogView.push, LogView.cut, LogView.lastIndex, ← hk, hlen]
          rw [show v.snapshotIndex + k + 1 = e.index by omega]
        rw [if_neg hterm, if_neg hterm, if_neg (by omega), hfull,
          ih (i := i + 1) (by dsimp only; omega)
            (by simp only [LogView.lastIndex, List.length_append, List.length_take,
                List.length_singleton]; omega) hnext]
        have hall : (v.entries.take k ++ [e]).length = k + 1 := by
          rw [List.length_append, List.length_take, List.length_singleton]
          omega
        dsimp only
        rw [hsucc, List.take_of_length_le (Nat.le_of_eq hall),
          List.drop_eq_nil_of_le (Nat.le_of_eq hall), nil_merge, List.append_assoc]
        rfl
    | none =>
      have hlen : v.entries.length = k := by
        have := List.getElem?_eq_none_iff.mp hx
        omega
      have hfull : v.push e.term e.data = { v with entries := v.entries ++ [e] } := by
        simp only [LogView.push, LogView.lastIndex]
        rw [show v.snapshotIndex + v.entries.length + 1 = e.index by omega]
      dsimp only [Option.map_none]
      rw [hfull, ih (i := i + 1) (by dsimp only; omega)
        (by simp only [LogView.lastIndex, List.length_append, List.length_singleton]; omega)
        hnext]
      have hall : (v.entries ++ [e]).length = k + 1 := by
        rw [List.length_append, List.length_singleton, hlen]
      dsimp only
      rw [hsucc, List.take_of_length_le (Nat.le_of_eq hall),
        List.drop_eq_nil_of_le (Nat.le_of_eq hall), nil_merge,
        List.take_of_length_le (Nat.le_of_eq hlen), List.drop_eq_nil_of_le (Nat.le_of_eq hlen),
        nil_merge, List.append_assoc]
      rfl

theorem storeAll_reaches {v : LogView} {i : ℕ} {entries : List LogEntry}
    (hi : v.snapshotIndex < i) (hlast : i ≤ v.lastIndex + 1) (hes : Consecutive i entries) :
    i + entries.length ≤ (storeAll v entries).lastIndex + 1 := by
  have hlen : entries.length ≤
      (merge LogEntry.term (v.entries.drop (i - v.snapshotIndex - 1)) entries).length :=
    length_le_merge _ _
  rw [LogView.lastIndex] at hlast
  rw [storeAll_merge hi hlast hes, LogView.lastIndex]
  dsimp only
  rw [List.length_append, List.length_take]
  omega

/-- Entries that leave a gap behind the log all come to its end. -/
theorem storeAll_gap {v : LogView} {i : ℕ} {entries : List LogEntry}
    (hgap : v.lastIndex + 1 < i) (hes : Consecutive i entries) :
    (storeAll v entries).lastIndex = v.lastIndex + entries.length := by
  induction entries generalizing v i with
  | nil => rfl
  | cons e entries ih =>
    have hbeyond : v.termAt e.index = none := termAt_beyond (by rw [hes.head]; omega)
    have hstore : store v e = v.push e.term e.data := by
      rw [store, hbeyond]
    have hlast := ih (v := v.push e.term e.data) (by rw [LogView.push_lastIndex]; omega)
      hes.tail
    rw [storeAll_cons, hstore, hlast, LogView.push_lastIndex, List.length_cons]
    omega

theorem acceptLeader_currentTerm {n : Node} {t : ℕ} (h : n.ps.currentTerm ≤ t)
    (leader : NodeId) : (n.acceptLeader t leader).ps.currentTerm = t := by
  rw [acceptLeader_ps]
  by_cases hlt : t > n.ps.currentTerm
  · rw [if_pos hlt]
    rfl
  · rw [if_neg hlt]
    exact Nat.le_antisymm h (Nat.not_lt.mp hlt)

section

variable [Crc32]

/-- The WAL of the node takes the records for the entries. -/
structure Takes (n : Node) (entries : List LogEntry) : Prop where
  healthy : ∃ c, Healthy n.log c
  config : n.log.wal.config = walConfig
  room : n.log.wal.nextSequence + 2 * entries.length ≤ 2 ^ 64
  fits : ∀ e ∈ entries, FitsSegment e.data

theorem appendLog_view {n : Node} (term : ℕ) {data : Bytes}
    (hhealthy : ∃ c, Healthy n.log c) (hcfg : n.log.wal.config = walConfig)
    (hseq : n.log.wal.nextSequence < 2 ^ 64) (hfit : FitsSegment data) :
    ∃ c, Healthy (n.appendLog term data).2.log c ∧
      (n.appendLog term data).2.log.wal.config = walConfig ∧
      (n.appendLog term data).2.log.toLogView = n.log.toLogView.push term data ∧
      (n.appendLog term data).2.log.wal.nextSequence = n.log.wal.nextSequence + 1 := by
  obtain ⟨c, hc⟩ := hhealthy
  have hlen : 17 + data.length < 2 ^ 32 := by
    have : headerSize + (17 + data.length) ≤ 64 * 1024 * 1024 := hfit
    omega
  obtain ⟨log', happ, hview, hhealthy', hcfg', hn⟩ :=
    append_spec hc term data hseq hlen (by rw [hcfg]; exact hfit)
  simp only [Node.appendLog, happ]
  exact ⟨_, hhealthy', hcfg'.trans hcfg, hview, hn⟩

theorem truncateLog_view {n : Node} {i : ℕ} (hhealthy : ∃ c, Healthy n.log c)
    (hcfg : n.log.wal.config = walConfig) (hseq : n.log.wal.nextSequence < 2 ^ 64)
    (hlast : i ≤ n.log.lastIndex) :
    ∃ c, Healthy (n.truncateLog i).log c ∧ (n.truncateLog i).log.wal.config = walConfig ∧
      (n.truncateLog i).log.toLogView =
        (if i ≤ n.log.snapshotIndex then n.log.toLogView else n.log.toLogView.cut i) ∧
      (n.truncateLog i).log.wal.nextSequence ≤ n.log.wal.nextSequence + 1 := by
  obtain ⟨c, hc⟩ := hhealthy
  by_cases hi : i ≤ n.log.snapshotIndex
  · simp only [Node.truncateLog, truncateFrom_out n.log (Or.inl hi), if_pos hi]
    exact ⟨c, hc, hcfg, rfl, Nat.le_succ _⟩
  · have hin : ¬ (i ≤ n.log.snapshotIndex ∨ i > n.log.lastIndex) := by omega
    obtain ⟨log', htr, hview, hhealthy', hcfg', hn⟩ :=
      truncateFrom_spec hc hseq (by rw [hcfg]; decide) hin
    simp only [Node.truncateLog, htr, if_neg hi]
    exact ⟨_, hhealthy', hcfg'.trans hcfg, hview, Nat.le_of_eq hn⟩

theorem Takes.of_le {n : Node} {es fs : List LogEntry} (h : Takes n es)
    (hlen : fs.length ≤ es.length) (hfits : ∀ e ∈ fs, FitsSegment e.data) : Takes n fs := by
  have hroom := h.room
  exact ⟨h.healthy, h.config, by omega, hfits⟩

theorem Takes.front {n : Node} {es fs : List LogEntry} (h : Takes n (es ++ fs)) :
    Takes n es := by
  apply h.of_le
  · rw [List.length_append]
    exact Nat.le_add_right _ _
  · intro e he
    exact h.fits e (List.mem_append_left _ he)

theorem storeEntry_view {n : Node} {e : LogEntry} {rest : List LogEntry}
    (h : Takes n (e :: rest)) :
    Takes (n.storeEntry e) rest ∧
      (n.storeEntry e).log.toLogView = store n.log.toLogView e := by
  have hroom := h.room
  rw [List.length_cons] at hroom
  have hfit := h.fits e (List.mem_cons_self ..)
  have hrest : ∀ x ∈ rest, FitsSegment x.data :=
    fun x hx => h.fits x (List.mem_cons_of_mem _ hx)
  rw [Node.storeEntry, store]
  cases ht : n.log.termAt e.index with
  | some t =>
    dsimp only
    by_cases hterm : t = e.term
    · rw [if_pos hterm, if_pos hterm]
      exact ⟨⟨h.healthy, h.config, by omega, hrest⟩, rfl⟩
    · rw [if_neg hterm, if_neg hterm]
      obtain ⟨c₁, h₁, hcfg₁, hview₁, hseq₁⟩ :=
        truncateLog_view (i := e.index) h.healthy h.config (by omega) (termAt_le_last ht)
      obtain ⟨c₂, h₂, hcfg₂, hview₂, hseq₂⟩ :=
        appendLog_view e.term ⟨c₁, h₁⟩ hcfg₁ (by omega) hfit
      exact ⟨⟨⟨c₂, h₂⟩, hcfg₂, by omega, hrest⟩, by rw [hview₂, hview₁]⟩
  | none =>
    dsimp only
    obtain ⟨c, hc, hcfg, hview, hseq⟩ :=
      appendLog_view e.term h.healthy h.config (by omega) hfit
    exact ⟨⟨⟨c, hc⟩, hcfg, by omega, hrest⟩, hview⟩

theorem storeEntries_view {n : Node} {entries rest : List LogEntry}
    (h : Takes n (entries ++ rest)) :
    Takes (n.storeEntries entries) rest ∧
      (n.storeEntries entries).log.toLogView = storeAll n.log.toLogView entries := by
  induction entries generalizing n with
  | nil => exact ⟨h, rfl⟩
  | cons e entries ih =>
    obtain ⟨hstep, hview⟩ := storeEntry_view h
    obtain ⟨hall, hviews⟩ := ih hstep
    exact ⟨hall, by rw [storeAll_cons, ← hview]; exact hviews⟩

theorem Takes.acceptLeader {n : Node} {entries : List LogEntry} (h : Takes n entries)
    (term : ℕ) (leader : NodeId) : Takes (n.acceptLeader term leader) entries := by
  have hlog := (acceptLeader_log n term leader).1
  exact ⟨hlog ▸ h.healthy, hlog ▸ h.config, hlog ▸ h.room, h.fits⟩

theorem onAppendEntries_takes {n : Node} {req : AppendEntriesRequest} {rest : List LogEntry}
    (h : Takes n (req.entries ++ rest)) : Takes (n.onAppendEntries req).2 rest := by
  have hrest : Takes n rest := by
    apply h.of_le
    · rw [List.length_append]
      exact Nat.le_add_left _ _
    · intro e he
      exact h.fits e (List.mem_append_right _ he)
  obtain ⟨_, ⟨_, _, hn | hn⟩ | ⟨_, _, hn⟩⟩ := onAppendEntries_cases n req
  · rw [hn]
    exact hrest
  · rw [hn]
    exact hrest.acceptLeader _ _
  · obtain ⟨hstored, _⟩ := storeEntries_view (h.acceptLeader req.term req.leaderId)
    rw [hn]
    exact ⟨hstored.healthy, hstored.config, hstored.room, hstored.fits⟩

/-- The request stores its entries and is acknowledged, or leaves the log alone. -/
theorem onAppendEntries_view {n : Node} {req : AppendEntriesRequest}
    (h : Takes n req.entries) :
    ((n.onAppendEntries req).1.success = true ↔ Passes n req) ∧
    (Passes n req → (n.onAppendEntries req).2.log.toLogView =
      storeAll n.log.toLogView req.entries) ∧
    (¬ Passes n req → (n.onAppendEntries req).2.log = n.log ∧
      (n.onAppendEntries req).2.commitIndex = n.commitIndex) := by
  obtain ⟨hlog, hcommit, _⟩ := acceptLeader_log n req.term req.leaderId
  rw [← List.append_nil req.entries] at h
  obtain ⟨_, hview⟩ := storeEntries_view (h.acceptLeader req.term req.leaderId)
  obtain ⟨_, ⟨hnot, hno, hn | hn⟩ | ⟨hpass, hyes, hn⟩⟩ := onAppendEntries_cases n req
  · rw [hn, hno]
    exact ⟨by simp [hnot], fun hp => absurd hp hnot, fun _ => ⟨rfl, rfl⟩⟩
  · rw [hn, hno]
    exact ⟨by simp [hnot], fun hp => absurd hp hnot, fun _ => ⟨hlog, hcommit⟩⟩
  · rw [hn, hyes]
    refine ⟨by simp [hpass], ?_, fun hnot => absurd hpass hnot⟩
    intro _
    rw [← hlog]
    exact hview

/-- A snapshot that the log is past is acknowledged without a change. -/
theorem onInstallSnapshot_old {n : Node} {req : InstallSnapshotRequest}
    (hterm : n.ps.currentTerm ≤ req.term)
    (hold : req.lastIncludedIndex ≤ n.log.snapshotIndex) :
    n.onInstallSnapshot req = (⟨req.term, true⟩, n.acceptLeader req.term req.leaderId) := by
  have hlog := (acceptLeader_log n req.term req.leaderId).1
  rw [Node.onInstallSnapshot, if_neg (Nat.not_lt.mpr hterm)]
  dsimp only
  rw [hlog, if_pos hold, acceptLeader_currentTerm hterm]

/-- A snapshot that the WAL takes the record of. -/
theorem onInstallSnapshot_ok {n : Node} {req : InstallSnapshotRequest} {log' : RaftLog}
    (hterm : n.ps.currentTerm ≤ req.term) (hnew : n.log.snapshotIndex < req.lastIncludedIndex)
    (hinstall : n.log.installSnapshot req.lastIncludedIndex req.lastIncludedTerm =
      (.ok (), log')) :
    (n.onInstallSnapshot req).1 = ⟨req.term, true⟩ ∧
      (n.onInstallSnapshot req).2.ps.currentTerm = req.term ∧
      (n.onInstallSnapshot req).2.log = log' ∧
      (n.onInstallSnapshot req).2.snapshotFile = some (snapshotOf req).fileBytes ∧
      (n.onInstallSnapshot req).2.snapshot = some (snapshotOf req) ∧
      (n.onInstallSnapshot req).2.commitIndex = max n.commitIndex req.lastIncludedIndex := by
  obtain ⟨hlog, hcommit, _⟩ := acceptLeader_log n req.term req.leaderId
  have hcur := acceptLeader_currentTerm hterm req.leaderId
  have hpast : ¬ req.lastIncludedIndex ≤
      (n.acceptLeader req.term req.leaderId).log.snapshotIndex := by
    rw [hlog]
    exact Nat.not_le.mpr hnew
  have hinstalled : ∀ s : Snapshot,
      (((n.acceptLeader req.term req.leaderId).saveSnapshot s).log.installSnapshot
        req.lastIncludedIndex req.lastIncludedTerm) = (.ok (), log') := by
    intro s
    rw [← hinstall, ← hlog]
    rfl
  simp only [Node.onInstallSnapshot, if_neg (Nat.not_lt.mpr hterm), if_neg hpast,
    Node.installLog, hinstalled]
  refine ⟨?_, hcur, rfl, rfl, rfl, ?_⟩
  · exact congrArg (fun t => (⟨t, true⟩ : InstallSnapshotResponse)) hcur
  · exact congrArg (max · req.lastIncludedIndex) hcommit

theorem onInstallSnapshot_new {n : Node} {req : InstallSnapshotRequest}
    {entries : List LogEntry} (hterm : n.ps.currentTerm ≤ req.term)
    (hnew : n.log.snapshotIndex < req.lastIncludedIndex) (h : Takes n entries)
    (hroom : n.log.wal.nextSequence + 2 * entries.length < 2 ^ 64) :
    (n.onInstallSnapshot req).1 = ⟨req.term, true⟩ ∧
      (n.onInstallSnapshot req).2.ps.currentTerm = req.term ∧
      (n.onInstallSnapshot req).2.log.toLogView =
        n.log.toLogView.replaySnapshot req.lastIncludedIndex req.lastIncludedTerm ∧
      Takes (n.onInstallSnapshot req).2 entries := by
  obtain ⟨c, hc⟩ := h.healthy
  obtain ⟨log', hinstall, hview, hhealthy, hcfg, hseq⟩ :=
    installSnapshot_spec (t := req.lastIncludedTerm) hc (by omega)
      (by rw [h.config]; decide) hnew
  obtain ⟨hresp, hcur, hlog, _⟩ := onInstallSnapshot_ok hterm hnew hinstall
  refine ⟨hresp, hcur, by rw [hlog, hview], ⟨hlog ▸ ⟨_, hhealthy⟩, ?_, ?_, h.fits⟩⟩
  · rw [hlog]
    exact hcfg.trans h.config
  · rw [hlog]
    omega

/-- A node with the given log, whose WAL is new. -/
def bare (term : ℕ) (v : LogView) (wal : Wal) : Node where
  id := "n1"
  peers := []
  ps := ⟨none, term, none⟩
  log := ⟨v, wal⟩
  role := .follower
  commitIndex := 0
  currentLeader := none
  nextIndex := fun _ => none
  matchIndex := fun _ => none
  snapshot := none
  snapshotTrigger := 100
  entriesSinceSnapshot := 0
  snapshotFile := none
  trail := []

theorem new_wal_takes : ∃ wal : Wal, ∀ n : Node, n.log.wal = wal →
    n.log.toLogView.Contiguous → ∀ entries : List LogEntry, entries.length < 2 ^ 62 →
      (∀ e ∈ entries, FitsSegment e.data) → Takes n entries := by
  obtain ⟨log, _, _, hhealthy, hcfg, hseq⟩ := open_log_empty walConfig
  refine ⟨log.wal, ?_⟩
  intro n hn hc entries hlen hfits
  refine ⟨⟨⟨[], []⟩, hn ▸ hhealthy.stores, hc⟩, hn ▸ hcfg, ?_, hfits⟩
  rw [hn, hseq]
  omega

end

end RaftNodeAppends
