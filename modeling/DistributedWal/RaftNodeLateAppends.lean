import DistributedWal.RaftNodeAgreement

/-! # Requests that arrive after a snapshot

`term_at` answers `None` for an entry that is compacted away, as it does for one beyond
the end, and the handler appends in both cases. So entries of a late request that lie at
or below the snapshot point go to the end of the log, with the indices that come next
there. The rest of the request may overwrite them again.
-/
namespace RaftNodeLateAppends

open LittleEndianCodec WalSegment WalEngine WalContents ReplicatedLog ReplicatedLogContents
open WalEntry (Crc32 ieee WalError)
open RaftPersistentState RaftSnapshot RaftNode RaftNodeHandlers RaftNodeLogs RaftNodeAppends
open RaftNodeAgreement FullLog LogMerge

/-- The entries of the request at or below the snapshot point, except the snapshot's own. -/
def misplaced (v : LogView) (entries : List LogEntry) : List LogEntry :=
  entries.filter (fun e => e.index ≤ v.snapshotIndex ∧ v.termAt e.index ≠ some e.term)

/-- The entries behind the snapshot point. -/
def behind (v : LogView) (entries : List LogEntry) : List LogEntry :=
  entries.filter (fun e => v.snapshotIndex < e.index)

/-- What the log gets for them: the next indices, and their terms and data. -/
def appended (v : LogView) (entries : List LogEntry) : List LogEntry :=
  entries.mapIdx (fun k e => ⟨e.term, v.lastIndex + 1 + k, e.data⟩)

/-- The log with more entries. -/
def extend (v : LogView) (entries : List LogEntry) : LogView :=
  { v with entries := v.entries ++ entries }

/-- The log as the entries at or below the snapshot point leave it. -/
def padded (v : LogView) (entries : List LogEntry) : LogView :=
  extend v (appended v (misplaced v entries))

/-- The rest of the request overwrites every entry that is appended at a wrong place: it
conflicts with the log up to there, or has the very same entry. -/
def Absorbed (v : LogView) (entries : List LogEntry) : Prop :=
  let wrong := appended v (misplaced v entries)
  ∀ k x, wrong[k]? = some x →
    (∃ p ≤ v.entries.length + k,
      Conflict LogEntry.term (v.entries ++ wrong) (behind v entries) p) ∨
    x ∈ behind v entries

/-- Every entry that is new in the log is one of the request, and a request without
entries behind the snapshot point changes nothing. -/
def OnlyRequested (v w : LogView) (entries : List LogEntry) : Prop :=
  (∀ x ∈ w.entries, x ∈ v.entries ∨ x ∈ entries) ∧
    ((∀ e ∈ entries, e.index ≤ v.snapshotIndex) → w = v)

theorem store_hidden {v : LogView} {e : LogEntry} (he : e.index ≤ v.snapshotIndex) :
    store v e = if v.termAt e.index = some e.term then v else v.push e.term e.data := by
  rw [store]
  cases ht : v.termAt e.index with
  | none => simp
  | some t =>
    by_cases hterm : t = e.term
    · simp [hterm]
    · simp [hterm, he]

theorem appended_cons (v : LogView) (e : LogEntry) (entries : List LogEntry) :
    appended v (e :: entries) =
      ⟨e.term, v.lastIndex + 1, e.data⟩ :: appended (v.push e.term e.data) entries := by
  simp only [appended, List.mapIdx_cons, LogView.push_lastIndex, Nat.add_zero]
  congr 2
  funext k x
  congr 1
  omega

theorem extend_push (v : LogView) (e : LogEntry) (entries : List LogEntry) :
    extend (v.push e.term e.data) entries =
      extend v (⟨e.term, v.lastIndex + 1, e.data⟩ :: entries) := by
  simp [extend, LogView.push]

/-- Entries at or below the snapshot point only make the log longer. -/
theorem storeAll_hidden {v : LogView} {entries : List LogEntry}
    (h : ∀ e ∈ entries, e.index ≤ v.snapshotIndex) :
    storeAll v entries = extend v (appended v (misplaced v entries)) := by
  induction entries generalizing v with
  | nil => simp [misplaced, appended, extend]
  | cons e entries ih =>
    have he := h e (List.mem_cons_self ..)
    have hrest : ∀ x ∈ entries, x.index ≤ v.snapshotIndex :=
      fun x hx => h x (List.mem_cons_of_mem _ hx)
    rw [storeAll_cons, store_hidden he]
    by_cases hown : v.termAt e.index = some e.term
    · rw [if_pos hown, ih hrest]
      simp [misplaced, hown]
    · rw [if_neg hown, ih (v := v.push e.term e.data) hrest]
      have hsame : misplaced (v.push e.term e.data) entries = misplaced v entries := by
        apply List.filter_congr
        intro x hx
        have hsame : (v.push e.term e.data).termAt x.index = v.termAt x.index :=
          @termAt_hidden v (v.push e.term e.data) rfl rfl _ (hrest x hx)
        rw [hsame]
        rfl
      rw [hsame, extend_push, ← appended_cons]
      simp [misplaced, he, hown]

theorem Consecutive.split {v : LogView} {i : ℕ} {entries : List LogEntry}
    (h : Consecutive i entries) :
    entries = entries.take (v.snapshotIndex + 1 - i) ++ behind v entries ∧
      (∀ e ∈ entries.take (v.snapshotIndex + 1 - i), e.index ≤ v.snapshotIndex) := by
  have hlow : ∀ e ∈ entries.take (v.snapshotIndex + 1 - i), e.index ≤ v.snapshotIndex := by
    intro e he
    obtain ⟨k, hk⟩ := List.mem_iff_getElem?.mp he
    rw [List.getElem?_take] at hk
    split at hk
    · have := h k e hk
      omega
    · cases hk
  have hhigh : ∀ e ∈ entries.drop (v.snapshotIndex + 1 - i), v.snapshotIndex < e.index := by
    intro e he
    obtain ⟨k, hk⟩ := List.mem_iff_getElem?.mp he
    rw [List.getElem?_drop] at hk
    have := h _ e hk
    omega
  refine ⟨?_, hlow⟩
  have hsplit := List.take_append_drop (v.snapshotIndex + 1 - i) entries
  have hbehind : behind v entries = entries.drop (v.snapshotIndex + 1 - i) := by
    rw [behind]
    conv_lhs => rw [← hsplit]
    rw [List.filter_append, List.filter_eq_nil_iff.mpr, List.nil_append, List.filter_eq_self.mpr]
    · intro e he
      exact decide_eq_true (hhigh e he)
    · intro e he
      have := hlow e he
      simp only [decide_eq_true_eq]
      omega
  rw [hbehind]
  exact hsplit.symm

theorem behind_eq_drop {v : LogView} {i : ℕ} {entries : List LogEntry}
    (hes : Consecutive i entries) :
    behind v entries = entries.drop (v.snapshotIndex + 1 - i) := by
  have htake := List.take_append_drop (v.snapshotIndex + 1 - i) entries
  conv_rhs at htake => rw [(Consecutive.split (v := v) hes).1]
  exact (List.append_cancel_left htake).symm

theorem behind_consecutive {v : LogView} {i : ℕ} {entries : List LogEntry}
    (hes : Consecutive i entries) :
    Consecutive (max i (v.snapshotIndex + 1)) (behind v entries) := by
  have hdrop := hes.drop (v.snapshotIndex + 1 - i)
  rw [← behind_eq_drop hes] at hdrop
  rwa [show i + (v.snapshotIndex + 1 - i) = max i (v.snapshotIndex + 1) by omega] at hdrop

theorem padded_lastIndex (v : LogView) (entries : List LogEntry) :
    v.lastIndex ≤ (padded v entries).lastIndex := by
  simp [padded, extend, LogView.lastIndex]

/-- Entries at or below the snapshot point first, then the others. -/
theorem storeAll_padded {v : LogView} {i : ℕ} {entries : List LogEntry}
    (hes : Consecutive i entries) :
    storeAll v entries = storeAll (padded v entries) (behind v entries) := by
  obtain ⟨hsplit, hlow⟩ := Consecutive.split (v := v) hes
  set low := entries.take (v.snapshotIndex + 1 - i)
  have hmisplaced : misplaced v entries = misplaced v low := by
    rw [misplaced]
    conv_lhs => rw [hsplit]
    rw [List.filter_append, misplaced]
    have hnone : (behind v entries).filter
        (fun e => e.index ≤ v.snapshotIndex ∧ v.termAt e.index ≠ some e.term) = [] := by
      rw [List.filter_eq_nil_iff]
      intro e he
      have := of_decide_eq_true (List.mem_filter.mp he).2
      simp only [decide_eq_true_eq]
      omega
    rw [hnone, List.append_nil]
  conv_lhs => rw [hsplit]
  rw [storeAll_append, storeAll_hidden hlow, padded, hmisplaced]

/-- The log after the entries: those behind the snapshot point are merged into what the others
leave. -/
theorem storeAll_late {v : LogView} {i : ℕ} {entries : List LogEntry}
    (hes : Consecutive i entries) (hlast : i ≤ v.lastIndex + 1) :
    ∃ k, (misplaced v entries ≠ [] → k = 0) ∧
      storeAll v entries =
        ⟨(v.entries ++ appended v (misplaced v entries)).take k ++
            merge LogEntry.term ((v.entries ++ appended v (misplaced v entries)).drop k)
              (behind v entries), v.snapshotIndex, v.snapshotTerm⟩ := by
  have hlen := padded_lastIndex v entries
  have hbase : v.snapshotIndex ≤ v.lastIndex := Nat.le_add_right _ _
  refine ⟨max i (v.snapshotIndex + 1) - v.snapshotIndex - 1, ?_, ?_⟩
  · intro hsome
    obtain ⟨e, he⟩ := List.exists_mem_of_ne_nil _ hsome
    obtain ⟨hmem, hcond⟩ := List.mem_filter.mp he
    have hle := (of_decide_eq_true hcond).1
    have := (hes.mem hmem).1
    omega
  · rw [storeAll_padded hes]
    exact storeAll_merge (v := padded v entries)
      (by simp only [padded, extend]; omega) (by omega) (behind_consecutive hes)

theorem mem_appended {v : LogView} {entries : List LogEntry} {k : ℕ} {x : LogEntry}
    (h : (appended v entries)[k]? = some x) : x.index = v.lastIndex + 1 + k := by
  rw [appended, List.getElem?_mapIdx] at h
  obtain ⟨e, _, rfl⟩ := Option.map_eq_some_iff.mp h
  rfl

/-- Something goes to a wrong place only when the misplaced entries are there, and then the
loop merges the rest of the request from the start of the log. -/
theorem storeAll_wrong {v : LogView} {i : ℕ} {entries : List LogEntry}
    (hes : Consecutive i entries) (hlast : i ≤ v.lastIndex + 1) :
    ∃ k, (∀ (j : ℕ) (x : LogEntry), (appended v (misplaced v entries))[j]? = some x → k = 0) ∧
      storeAll v entries =
        ⟨(v.entries ++ appended v (misplaced v entries)).take k ++
            merge LogEntry.term ((v.entries ++ appended v (misplaced v entries)).drop k)
              (behind v entries), v.snapshotIndex, v.snapshotTerm⟩ := by
  obtain ⟨k, hk, heq⟩ := storeAll_late hes hlast
  refine ⟨k, ?_, heq⟩
  intro j x hx
  apply hk
  intro h
  rw [h] at hx
  simp [appended] at hx

theorem absorbed_of_onlyRequested {v : LogView} {i : ℕ} {entries : List LogEntry}
    (hc : v.Contiguous) (hes : Consecutive i entries) (hlast : i ≤ v.lastIndex + 1)
    (h : OnlyRequested v (storeAll v entries) entries) : Absorbed v entries := by
  obtain ⟨k, hzero, heq⟩ := storeAll_wrong hes hlast
  set wrong := appended v (misplaced v entries) with hwrong
  intro j x hx
  by_cases hconf : ∃ p ≤ v.entries.length + j,
      Conflict LogEntry.term (v.entries ++ wrong) (behind v entries) p
  · exact Or.inl hconf
  right
  -- without a conflict the entry is still there
  have hplace : (v.entries ++ wrong)[v.entries.length + j]? = some x := by
    rw [List.getElem?_append_right (Nat.le_add_right _ _), Nat.add_sub_cancel_left]
    exact hx
  have hstays : x ∈ (storeAll v entries).entries := by
    have hget := merge_of_no_conflict (fun p hp hc => hconf ⟨p, hp, hc⟩)
    rw [hplace, Option.some_or] at hget
    rw [heq, hzero j x hx]
    exact List.mem_of_getElem? hget
  have hindex := mem_appended hx
  have hnew : x ∈ entries := by
    rcases h.1 x hstays with hold | hnew
    · have := (hc.bounds hold).2
      omega
    · exact hnew
  apply List.mem_filter.mpr
  refine ⟨hnew, decide_eq_true ?_⟩
  rw [hindex, LogView.lastIndex]
  omega

/-- What the merge keeps of the log is not what went to a wrong place. -/
theorem merged_of_absorbed {v : LogView} {entries : List LogEntry} (h : Absorbed v entries)
    {k : ℕ}
    (hzero : ∀ (j : ℕ) (x : LogEntry), (appended v (misplaced v entries))[j]? = some x → k = 0)
    {x : LogEntry} (hx : x ∈ merge LogEntry.term
      ((v.entries ++ appended v (misplaced v entries)).drop k) (behind v entries)) :
    x ∈ v.entries ∨ x ∈ behind v entries := by
  set wrong := appended v (misplaced v entries) with hwrong
  obtain ⟨q, hq⟩ := List.mem_iff_getElem?.mp hx
  by_cases hconf : ∃ p ≤ q, Conflict LogEntry.term ((v.entries ++ wrong).drop k)
      (behind v entries) p
  · obtain ⟨p, hp, hconf⟩ := hconf
    rw [merge_of_conflict hconf hp] at hq
    exact Or.inr (List.mem_of_getElem? hq)
  rw [merge_of_no_conflict (fun p hp hc => hconf ⟨p, hp, hc⟩), Option.or_eq_some_iff] at hq
  rcases hq with hq | ⟨_, hq⟩
  · rcases List.mem_append.mp (List.mem_of_mem_drop (List.mem_of_getElem? hq)) with hmem | hmem
    · exact Or.inl hmem
    · obtain ⟨j, hj⟩ := List.mem_iff_getElem?.mp hmem
      rw [hzero j x hj, List.drop_zero] at hq hconf
      by_cases hold : q < v.entries.length
      · rw [List.getElem?_append_left hold] at hq
        exact Or.inl (List.mem_of_getElem? hq)
      · rw [List.getElem?_append_right (Nat.not_lt.mp hold)] at hq
        rcases h _ x hq with ⟨p, hp, hc⟩ | hin
        · exact absurd ⟨p, by omega, hc⟩ hconf
        · exact Or.inr hin
  · exact Or.inr (List.mem_of_getElem? hq)

/-- A request without entries behind the snapshot point absorbs only nothing. -/
theorem Absorbed.nothing {v : LogView} {entries : List LogEntry} (h : Absorbed v entries)
    (hempty : behind v entries = []) : appended v (misplaced v entries) = [] := by
  rw [List.eq_nil_iff_forall_not_mem]
  intro x hx
  obtain ⟨j, hj⟩ := List.mem_iff_getElem?.mp hx
  rcases h j x hj with ⟨p, _, _, y, _, hy, _⟩ | hin
  · rw [hempty] at hy
    simp at hy
  · rw [hempty] at hin
    cases hin

/-- Nothing wrong is left exactly when the request absorbs what went to the wrong place. -/
theorem onlyRequested_iff {v : LogView} {i : ℕ} {entries : List LogEntry} (hc : v.Contiguous)
    (hes : Consecutive i entries) (hlast : i ≤ v.lastIndex + 1) :
    OnlyRequested v (storeAll v entries) entries ↔ Absorbed v entries := by
  refine ⟨absorbed_of_onlyRequested hc hes hlast, ?_⟩
  intro h
  obtain ⟨k, hzero, heq⟩ := storeAll_wrong hes hlast
  have hbehind : ∀ x ∈ behind v entries, x ∈ entries := fun x hx => List.mem_of_mem_filter hx
  constructor
  · intro x hx
    rw [heq] at hx
    rcases List.mem_append.mp hx with hx | hx
    · rcases List.mem_append.mp (List.mem_of_mem_take hx) with hold | hwrongly
      · exact Or.inl hold
      · obtain ⟨j, hj⟩ := List.mem_iff_getElem?.mp hwrongly
        rw [hzero j x hj, List.take_zero] at hx
        cases hx
    · exact (merged_of_absorbed h hzero hx).imp_right (hbehind x)
  · intro hall
    have hempty : behind v entries = [] := by
      rw [behind, List.filter_eq_nil_iff]
      intro e he
      have := hall e he
      simp only [decide_eq_true_eq]
      omega
    rw [heq, h.nothing hempty, hempty, List.append_nil, merge_nil, List.take_append_drop]

section

variable [Crc32]

/-- A request with consecutive entries leaves only requested entries exactly when it is
refused or overwrites what it put at wrong places. -/
theorem late_appends_absorbed {n : Node} {req : AppendEntriesRequest}
    (hes : Consecutive (req.prevLogIndex + 1) req.entries) (hwal : Takes n req.entries) :
    OnlyRequested n.log.toLogView (n.onAppendEntries req).2.log.toLogView req.entries ↔
      ¬ Passes n req ∨ Absorbed n.log.toLogView req.entries := by
  obtain ⟨_, hview, hrefused⟩ := onAppendEntries_view hwal
  by_cases hpass : Passes n req
  · have hlast : req.prevLogIndex + 1 ≤ n.log.lastIndex + 1 := by
      by_cases hpos : 0 < req.prevLogIndex
      · have := termAt_le_last (hpass.2 hpos)
        omega
      · omega
    obtain ⟨c, hc⟩ := hwal.healthy
    rw [hview hpass, onlyRequested_iff hc.contiguous hes hlast]
    simp [hpass]
  · rw [(hrefused hpass).1]
    simp only [hpass, not_false_eq_true, true_or, iff_true]
    exact ⟨fun x hx => Or.inl hx, fun _ => rfl⟩

end

/-- Behind a snapshot at index 2, the late entry 1 goes to index 4, until entry 3 of the same
request overwrites what is there. -/
theorem late_appends_absorbed_overwritten :
    ∃ (n : Node) (req : AppendEntriesRequest), n.log.toLogView = ⟨[⟨1, 3, [9]⟩], 2, 1⟩ ∧
      req.entries = [⟨1, 1, [7]⟩, ⟨1, 2, [8]⟩, ⟨2, 3, [5]⟩] ∧
      (@Node.onAppendEntries ieee n req).1.success = true ∧
      misplaced n.log.toLogView req.entries = [⟨1, 1, [7]⟩] ∧
      (@Node.onAppendEntries ieee n req).2.log.entries = [⟨2, 3, [5]⟩] ∧
      OnlyRequested n.log.toLogView (@Node.onAppendEntries ieee n req).2.log.toLogView
        req.entries := by
  let _ : Crc32 := ieee
  obtain ⟨wal, hwal⟩ := new_wal_takes
  let v : LogView := ⟨[⟨1, 3, [9]⟩], 2, 1⟩
  let n : Node := bare 1 v wal
  let req : AppendEntriesRequest :=
    ⟨2, "n1", 0, 0, [⟨1, 1, [7]⟩, ⟨1, 2, [8]⟩, ⟨2, 3, [5]⟩], 0⟩
  have hes : Consecutive (req.prevLogIndex + 1) req.entries := by
    have hl : (⟨req.entries, 0, 0⟩ : LogView).Contiguous :=
      ((LogView.Contiguous.empty.push 1 [7]).push 1 [8]).push 2 [5]
    exact contiguous_consecutive hl
  have hc : v.Contiguous := by
    intro k e he
    obtain ⟨hk, rfl⟩ := List.getElem?_eq_some_iff.mp he
    obtain rfl : k = 0 := by simpa [v] using hk
    rfl
  have htakes : Takes n req.entries := by
    refine hwal n rfl hc _ (by simp [req]) ?_
    simp [req, fitsSegment_byte]
  have hterm : 1 ≤ 2 := by decide
  have hpass : Passes n req := ⟨hterm, fun h => absurd h (lt_irrefl 0)⟩
  have hwrong : misplaced v req.entries = [⟨1, 1, [7]⟩] := by decide
  have habsorbed : Absorbed v req.entries := by
    intro k x _
    refine Or.inl ⟨0, Nat.zero_le _, ⟨1, 3, [9]⟩, ⟨2, 3, [5]⟩, ?_, by decide, by decide⟩
    rw [hwrong]
    rfl
  obtain ⟨hsuccess, hview, _⟩ := onAppendEntries_view htakes
  refine ⟨n, req, rfl, rfl, hsuccess.mpr hpass, hwrong, ?_,
    (late_appends_absorbed hes htakes).mpr (Or.inr habsorbed)⟩
  rw [hview hpass]
  rfl

/-- Behind a snapshot at index 2, the late entry 1 becomes entry 3. -/
theorem late_append_misplaced :
    ¬ ∀ (n : Node) (req : AppendEntriesRequest), WellFormed n.log.toLogView →
      req.term = n.ps.currentTerm → Consecutive (req.prevLogIndex + 1) req.entries →
      @Takes ieee n req.entries →
      OnlyRequested n.log.toLogView (@Node.onAppendEntries ieee n req).2.log.toLogView
        req.entries := by
  intro hclaim
  let _ : Crc32 := ieee
  obtain ⟨wal, hwal⟩ := new_wal_takes
  let n : Node := bare 1 ⟨[], 2, 1⟩ wal
  let req : AppendEntriesRequest := ⟨1, "n1", 0, 0, [⟨1, 1, [7]⟩], 0⟩
  have hc : n.log.toLogView.Contiguous := fun k e he => by simp [n, bare] at he
  have hn : WellFormed n.log.toLogView := ⟨hc, by simp [n, bare], fun _ => le_rfl⟩
  have hes : Consecutive (req.prevLogIndex + 1) req.entries := consecutive_singleton _
  have htakes : Takes n req.entries := hwal n rfl hc _ (by decide)
    (by simp [req, FitsSegment, walConfig, WalEntry.headerSize])
  have hpass : Passes n req := ⟨le_rfl, fun h => absurd h (lt_irrefl 0)⟩
  have hafter : (n.onAppendEntries req).2.log.toLogView = ⟨[⟨1, 3, [7]⟩], 2, 1⟩ := by
    rw [(onAppendEntries_view htakes).2.1 hpass]
    rfl
  have hsame := (hclaim n req hn rfl hes htakes).2
    (by simp [req, n, bare])
  rw [hafter] at hsame
  cases congrArg LogView.entries hsame

end RaftNodeLateAppends
