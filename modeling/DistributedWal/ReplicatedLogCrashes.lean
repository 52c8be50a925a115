import DistributedWal.ReplicatedLogRecovery

/-! # What a crash in a compaction leaves of the journal

The sealed segments go one by one, the oldest first, and the crash can come after any of
them. The replay of the others still gives the log if, wherever it stops, the entries that
were appended above the snapshot point in them are exactly the retained ones.
-/
namespace ReplicatedLogCrashes

open LittleEndianCodec WalEntry WalSegment WalEngine WalContents ReplicatedLog
open ReplicatedLogContents ReplicatedLogRecovery

/-- The records from segment number `k` on. -/
def recordsFrom (c : Contents) (k : ℕ) : List Entry :=
  ((c.sealed.map Prod.snd ++ [c.active]).drop k).flatten

/-- The records replay to the log, or are its journal since an earlier view. -/
def Rebuilds (records : List Bytes) (v : LogView) : Prop :=
  replay LogView.empty records = v ∨
    ∃ base : LogView, base.Contiguous ∧ Journal base records v

/-- The journal replays to the log, and each end of it rebuilds the log. -/
structure Restores (c : Contents) (v : LogView) : Prop where
  contiguous : v.Contiguous
  whole : replay LogView.empty (payloads c.entries) = v
  ends : ∀ k, Rebuilds (payloads (recordsFrom c k)) v

theorem flatten_drop_concat {α : Type*} (l : List (List α)) (x : List α) {k : ℕ}
    (hk : k ≤ l.length) : ((l ++ [x]).drop k).flatten = (l.drop k).flatten ++ x := by
  rw [List.drop_append_of_le_length hk, List.flatten_append, List.flatten_singleton]

theorem flatten_drop_nil {α : Type*} (l : List (List α)) (k : ℕ) :
    ((l ++ [[]]).drop k).flatten = (l.drop k).flatten := by
  rcases Nat.le_total k l.length with hk | hk
  · rw [flatten_drop_concat _ _ hk, List.append_nil]
  · rw [List.drop_append, List.flatten_append]
    cases k - l.length <;> simp

theorem recordsFrom_zero (c : Contents) : recordsFrom c 0 = c.entries := by
  rw [recordsFrom, flatten_drop_concat _ _ (Nat.zero_le _)]
  rfl

theorem recordsFrom_above {c : Contents} {k : ℕ} (hk : c.sealed.length < k) :
    recordsFrom c k = [] := by
  have hlen : (c.sealed.map Prod.snd ++ [c.active]).length ≤ k := by
    simp only [List.length_append, List.length_map, List.length_singleton]
    exact hk
  rw [recordsFrom, List.drop_eq_nil_of_le hlen]
  rfl

theorem recordsFrom_dropped {c : Contents} {k : ℕ} (hk : k ≤ c.sealed.length) (j : ℕ) :
    recordsFrom (dropped c k) j = recordsFrom c (k + j) := by
  have hlen : k ≤ (c.sealed.map Prod.snd).length := by
    rw [List.length_map]
    exact hk
  rw [recordsFrom, recordsFrom, dropped, ← List.drop_drop, List.map_drop,
    List.drop_append_of_le_length hlen]

theorem recordsFrom_rotated (c : Contents) (id k : ℕ) :
    recordsFrom (c.rotated id) k = recordsFrom c k := by
  rw [recordsFrom, recordsFrom, Contents.rotated, List.map_append]
  exact flatten_drop_nil _ k

/-- A new record goes behind every end of the journal. -/
theorem recordsFrom_grown (c : Contents) (w : Wal) (data : Bytes) {k : ℕ}
    (hk : k ≤ (c.grown w data).sealed.length) :
    recordsFrom (c.grown w data) k = recordsFrom c k ++ [⟨w.nextSequence, data⟩] := by
  rw [Contents.grown] at hk ⊢
  by_cases hover : w.active.wouldOverflow (headerSize + data.length) = true
  · rw [if_pos hover] at hk ⊢
    have hlen : k ≤ (c.sealed.map Prod.snd ++ [c.active]).length := by
      simpa [Contents.appended, Contents.rotated] using hk
    rw [recordsFrom, recordsFrom, Contents.rotated, Contents.appended, List.map_append]
    exact flatten_drop_concat _ _ hlen
  · rw [if_neg hover] at hk ⊢
    have hlen : k ≤ (c.sealed.map Prod.snd).length := by
      simpa [Contents.appended] using hk
    rw [recordsFrom, recordsFrom, Contents.appended, flatten_drop_concat _ _ hlen,
      flatten_drop_concat _ _ hlen, List.append_assoc]

theorem Rebuilds.nil {v : LogView} (h : v.Contiguous) : Rebuilds [] v :=
  Or.inr ⟨v, h, .start⟩

theorem Restores.empty : Restores ⟨[], []⟩ LogView.empty := by
  refine ⟨.empty, rfl, ?_⟩
  intro k
  cases k with
  | zero => exact .nil .empty
  | succ k =>
    rw [recordsFrom_above (Nat.succ_pos k)]
    exact .nil .empty

theorem Restores.rotated {c : Contents} {v : LogView} (h : Restores c v) (id : ℕ) :
    Restores (c.rotated id) v := by
  refine ⟨h.contiguous, ?_, ?_⟩
  · rw [rotated_entries]
    exact h.whole
  · intro k
    rw [recordsFrom_rotated]
    exact h.ends k

/-- A record that continues every journal of the log. -/
theorem Restores.grown {c : Contents} {v v' : LogView} (h : Restores c v) (w : Wal)
    {record : Bytes} (hcont : v'.Contiguous)
    (hnext : ∀ base rs, Journal base rs v → Journal base (rs ++ [record]) v')
    (hreplay : replayRecord v record = v') : Restores (c.grown w record) v' := by
  refine ⟨hcont, ?_, ?_⟩
  · rw [grown_entries, payloads_append, replay_append, h.whole]
    exact hreplay
  · intro k
    rcases Nat.lt_or_ge (c.grown w record).sealed.length k with hk | hk
    · rw [recordsFrom_above hk]
      exact .nil hcont
    · rw [recordsFrom_grown c w record hk, payloads_append]
      rcases h.ends k with hwhole | ⟨base, hb, hj⟩
      · left
        rw [replay_append, hwhole]
        exact hreplay
      · exact Or.inr ⟨base, hb, hnext base _ hj⟩

theorem Restores.appended {c : Contents} {v : LogView} (h : Restores c v) (w : Wal) {term : ℕ}
    (data : Bytes) (hindex : v.lastIndex + 1 < 2 ^ 64) (hterm : term < 2 ^ 64) :
    Restores (c.grown w (encodeAppend ⟨term, v.lastIndex + 1, data⟩)) (v.push term data) := by
  apply h.grown w (h.contiguous.push term data) (fun _ _ hj => hj.append hterm hindex)
  rw [replayRecord_append hindex hterm, LogView.replayAppend_next]

theorem Restores.truncated {c : Contents} {v : LogView} (h : Restores c v) (w : Wal) {i : ℕ}
    (hlow : v.snapshotIndex < i) (hlast : i ≤ v.lastIndex) (hi : i < 2 ^ 64) :
    Restores (c.grown w (encodeTruncate i)) (v.cut i) := by
  apply h.grown w (h.contiguous.cut i) (fun _ _ hj => hj.truncate hlow hlast hi)
  rw [replayRecord_truncate hi, LogView.replayTruncate_inside _ hlow]

/-- How many segments a compaction that starts now deletes. -/
def deletions (wal : Wal) : ℕ :=
  if wal.active.wouldOverflow snapshotRecordSize then wal.sealed.length + 1
  else wal.sealed.length

section

variable [Crc32]

/-- The records before segment number `k`, and those from it on. -/
def recordsAround (wal : Wal) (k : ℕ) : Except WalError (List Entry × List Entry) :=
  let segments := wal.sealed ++ [wal.active.id]
  match readSealed wal.dir (segments.take k) with
  | .error e => .error e
  | .ok lost =>
    match readSealed wal.dir (segments.drop k) with
    | .error e => .error e
    | .ok left => .ok (lost, left)

/-- Wherever a compaction at `i` stops, it has deleted no record, or the APPEND records
above `i` that it has left are exactly the entries the log retains. -/
def TailOutlasts (log : RaftLog) (i : ℕ) : Prop :=
  ∀ k ≤ deletions log.wal, ∃ lost left, recordsAround log.wal k = .ok (lost, left) ∧
    (lost = [] ∨ appendsAbove i (payloads left) = log.entries.filter (fun e => e.index > i))

variable {w : Wal} {c : Contents} {log : RaftLog}

theorem recordsAround_eq (h : Stores w c) (k : ℕ) :
    recordsAround w k =
      .ok (((c.sealed.map Prod.snd ++ [c.active]).take k).flatten, recordsFrom c k) := by
  set ps := c.sealed ++ [(w.active.id, c.active)] with hps
  have hread : ∀ p ∈ ps, readEntries w.dir p.1 = .ok p.2 := by
    intro p hp
    rcases List.mem_append.mp hp with hp | hp
    · exact h.read_sealed hp
    · obtain rfl := List.mem_singleton.mp hp
      exact h.read_active
  have hids : w.sealed ++ [w.active.id] = ps.map Prod.fst := by
    rw [h.sealed_ids, hps, List.map_append]
    rfl
  have hrecords : c.sealed.map Prod.snd ++ [c.active] = ps.map Prod.snd := by
    rw [hps, List.map_append]
    rfl
  have hlost := readSealed_eq (fun p hp => hread p (List.mem_of_mem_take (i := k) hp))
  have hleft := readSealed_eq (fun p hp => hread p (List.mem_of_mem_drop (i := k) hp))
  rw [List.map_take, List.map_take] at hlost
  rw [List.map_drop, List.map_drop] at hleft
  simp only [recordsAround, recordsFrom, hids, hrecords, hlost, hleft]

theorem grown_deletions (h : Stores w c) (i t : ℕ) :
    (c.grown w (encodeSnapshot i t)).sealed.length = deletions w := by
  have hsize : headerSize + (encodeSnapshot i t).length = snapshotRecordSize := by
    simp [snapshotRecordSize]
  rw [Contents.grown, hsize, deletions, h.sealed_ids]
  split
  · simp [Contents.appended, Contents.rotated]
  · simp [Contents.appended]

/-- What is left wherever a compaction or an installation at `i` stops. -/
theorem Restores.snapshotted (h : Restores c log.toLogView) (hst : Stores log.wal c) {i t : ℕ}
    (hi : i < 2 ^ 64) (ht : t < 2 ^ 64) (hlow : log.snapshotIndex < i)
    (htail : TailOutlasts log i) {k : ℕ} (hk : k ≤ deletions log.wal) :
    Restores (dropped (c.grown log.wal (encodeSnapshot i t)) k)
      (log.toLogView.replaySnapshot i t) := by
  have hcont := h.contiguous.above (Nat.le_of_lt hlow) t
  have hlen := grown_deletions hst i t
  have hend : ∀ j ≤ deletions log.wal, replay LogView.empty
      (payloads (recordsFrom (c.grown log.wal (encodeSnapshot i t)) j)) =
        log.toLogView.replaySnapshot i t := by
    intro j hj
    rw [recordsFrom_grown c _ _ (hlen ▸ hj), payloads_append, replay_append]
    show replayRecord _ (encodeSnapshot i t) = _
    rw [replayRecord_snapshot hi ht]
    obtain ⟨lost, left, hsplit, hkept⟩ := htail j hj
    rw [recordsAround_eq hst] at hsplit
    cases hsplit
    by_cases hlost : ((c.sealed.map Prod.snd ++ [c.active]).take j).flatten = []
    · have hall : recordsFrom c j = c.entries := by
        have hsplit := List.take_append_drop j (c.sealed.map Prod.snd ++ [c.active])
        rw [← recordsFrom_zero, recordsFrom, recordsFrom, List.drop_zero]
        conv_rhs => rw [← hsplit, List.flatten_append, hlost, List.nil_append]
      rw [hall, h.whole]
    · rcases h.ends j with hwhole | ⟨base, hb, hjournal⟩
      · rw [hwhole]
      · exact hjournal.replaySnapshot hb h.contiguous t (hkept.resolve_left hlost)
  have hleft : ∀ j, recordsFrom (dropped (c.grown log.wal (encodeSnapshot i t)) k) j =
      recordsFrom (c.grown log.wal (encodeSnapshot i t)) (k + j) :=
    recordsFrom_dropped (hlen ▸ hk)
  refine ⟨hcont, ?_, ?_⟩
  · rw [← recordsFrom_zero, hleft]
    exact hend k hk
  · intro j
    rw [hleft]
    rcases Nat.lt_or_ge (deletions log.wal) (k + j) with hj | hj
    · rw [recordsFrom_above (by omega)]
      exact .nil hcont
    · exact Or.inl (hend (k + j) hj)

/-- When all the segments are gone. -/
theorem Restores.journalled (h : Restores c log.toLogView) (hst : Stores log.wal c) {i t : ℕ}
    (hi : i < 2 ^ 64) (ht : t < 2 ^ 64) (hlow : log.snapshotIndex < i)
    (htail : TailOutlasts log i) :
    Restores (journalled log.wal c i t) (log.toLogView.replaySnapshot i t) := by
  have hall := h.snapshotted hst hi ht hlow htail le_rfl
  rw [dropped, ← grown_deletions hst i t, List.drop_length] at hall
  have hsize : headerSize + (encodeSnapshot i t).length = snapshotRecordSize := by
    simp [snapshotRecordSize]
  rw [ReplicatedLogContents.journalled, survivingRecords]
  rw [Contents.grown, hsize] at hall
  by_cases hover : log.wal.active.wouldOverflow snapshotRecordSize = true
  · rw [if_pos hover] at hall ⊢
    exact hall
  · rw [if_neg hover] at hall ⊢
    exact hall

end

end ReplicatedLogCrashes
