import DistributedWal.WalContents

/-! # The replicated log and its journal

The entries after the snapshot point are kept in memory; every mutation is journalled
in a WAL, and opening replays the journal. `LogView` is the in-memory part, which is
also what the replay rebuilds.
-/
namespace ReplicatedLog

open LittleEndianCodec WalEntry WalSegment WalEngine WalContents

structure LogEntry where
  term : ℕ
  /-- 1-based position in the log. -/
  index : ℕ
  data : Bytes
  deriving DecidableEq, Repr

structure LogView where
  entries : List LogEntry
  snapshotIndex : ℕ
  snapshotTerm : ℕ
  deriving DecidableEq, Repr

structure RaftLog extends LogView where
  wal : Wal

def LogView.empty : LogView := ⟨[], 0, 0⟩

def LogView.lastIndex (v : LogView) : ℕ := v.snapshotIndex + v.entries.length

def LogView.lastTerm (v : LogView) : ℕ :=
  match v.entries.getLast? with
  | some e => e.term
  | none => v.snapshotTerm

def LogView.termAt (v : LogView) (index : ℕ) : Option ℕ :=
  if index = 0 then none
  else if index = v.snapshotIndex then some v.snapshotTerm
  else if index < v.snapshotIndex then none
  else (v.entries[index - v.snapshotIndex - 1]?).map LogEntry.term

def LogView.entriesFrom (v : LogView) (fromIndex : ℕ) : List LogEntry :=
  let start := max fromIndex (v.snapshotIndex + 1)
  if start = 0 ∨ start > v.lastIndex then []
  else v.entries.drop (start - v.snapshotIndex - 1)

def LogView.firstIndexOfTerm (v : LogView) (term : ℕ) : Option ℕ :=
  if term = v.snapshotTerm ∧ v.snapshotIndex > 0 then some v.snapshotIndex
  else (v.entries.find? (fun e => e.term = term)).map LogEntry.index

/-- The log with a new entry at its end. -/
def LogView.push (v : LogView) (term : ℕ) (data : Bytes) : LogView :=
  { v with entries := v.entries ++ [⟨term, v.lastIndex + 1, data⟩] }

/-- The log without its entries from `i` on. -/
def LogView.cut (v : LogView) (i : ℕ) : LogView :=
  { v with entries := v.entries.take (i - v.snapshotIndex - 1) }

def kindAppend : UInt8 := 1
def kindTruncate : UInt8 := 2
def kindSnapshot : UInt8 := 3

def encodeAppend (e : LogEntry) : Bytes :=
  kindAppend :: (leBytes 8 e.index ++ (leBytes 8 e.term ++ e.data))

def decodeAppend (payload : Bytes) : Option LogEntry :=
  if payload.length < 16 then none
  else some ⟨leValue ((payload.drop 8).take 8), leValue (payload.take 8), payload.drop 16⟩

def encodeTruncate (fromIndex : ℕ) : Bytes := kindTruncate :: leBytes 8 fromIndex

def encodeSnapshot (lastIndex lastTerm : ℕ) : Bytes :=
  kindSnapshot :: (leBytes 8 lastIndex ++ leBytes 8 lastTerm)

/-- Replay of an APPEND record. Indices at or before the snapshot are ignored. -/
def LogView.replayAppend (v : LogView) (e : LogEntry) : LogView :=
  let offset := e.index - (v.snapshotIndex + 1)
  if e.index > v.snapshotIndex then
    if offset < v.entries.length then { v with entries := v.entries.set offset e }
    else { v with entries := v.entries ++ [e] }
  else v

def LogView.replayTruncate (v : LogView) (fromIndex : ℕ) : LogView :=
  if fromIndex > v.snapshotIndex + 1 then
    { v with entries := v.entries.take (fromIndex - v.snapshotIndex - 1) }
  else if fromIndex = v.snapshotIndex + 1 then { v with entries := [] }
  else v

def LogView.replaySnapshot (v : LogView) (lastIndex lastTerm : ℕ) : LogView :=
  ⟨v.entries.filter (fun e => e.index > lastIndex), lastIndex, lastTerm⟩

/-- One step of the replay. Empty payloads, short records and unknown kinds are
skipped. -/
def replayRecord (v : LogView) (payload : Bytes) : LogView :=
  match payload with
  | [] => v
  | kind :: rest =>
    if kind = kindAppend then
      match decodeAppend rest with
      | some e => v.replayAppend e
      | none => v
    else if kind = kindTruncate then
      if payload.length ≥ 9 then v.replayTruncate (leValue (rest.take 8)) else v
    else if kind = kindSnapshot then
      if payload.length ≥ 17 then
        v.replaySnapshot (leValue (rest.take 8)) (leValue ((rest.drop 8).take 8))
      else v
    else v

def replay (v : LogView) (payloads : List Bytes) : LogView := payloads.foldl replayRecord v

section

variable [Crc32]

def RaftLog.open (config : WalConfig) (d : Dir) : Except WalError RaftLog :=
  match Wal.open config d with
  | .error e => .error e
  | .ok wal =>
    match wal.readFrom 1 with
    | .error e => .error e
    | .ok all => .ok ⟨replay LogView.empty (all.map Entry.data), wal⟩

def RaftLog.append (log : RaftLog) (term : ℕ) (data : Bytes) :
    Except WalError ℕ × RaftLog :=
  let index := log.lastIndex + 1
  let entry : LogEntry := ⟨term, index, data⟩
  match log.wal.append (encodeAppend entry) with
  | (.error e, wal) => (.error e, { log with wal := wal })
  | (.ok _, wal) => (.ok index, { log with wal := wal, entries := log.entries ++ [entry] })

def RaftLog.truncateFrom (log : RaftLog) (fromIndex : ℕ) : Except WalError Unit × RaftLog :=
  if fromIndex ≤ log.snapshotIndex ∨ fromIndex > log.lastIndex then (.ok (), log)
  else
    match log.wal.append (encodeTruncate fromIndex) with
    | (.error e, wal) => (.error e, { log with wal := wal })
    | (.ok _, wal) =>
      (.ok (), { log with
        wal := wal
        entries := log.entries.take (fromIndex - log.snapshotIndex - 1) })

/-- The three WAL calls that `compact` and `install_snapshot` begin with: append the
SNAPSHOT record, checkpoint it, free the segments before it. -/
def journalSnapshot (wal : Wal) (lastIndex lastTerm : ℕ) : Except WalError Unit × Wal :=
  match wal.append (encodeSnapshot lastIndex lastTerm) with
  | (.error e, wal) => (.error e, wal)
  | (.ok snapSeq, wal) => (wal.checkpoint snapSeq).truncateBefore snapSeq

def RaftLog.compact (log : RaftLog) (lastIncludedIndex lastIncludedTerm : ℕ) :
    Except WalError Unit × RaftLog :=
  if lastIncludedIndex ≤ log.snapshotIndex then (.ok (), log)
  else
    match journalSnapshot log.wal lastIncludedIndex lastIncludedTerm with
    | (.error e, wal) => (.error e, { log with wal := wal })
    | (.ok _, wal) =>
      let trim := min lastIncludedIndex log.lastIndex - log.snapshotIndex
      let entries := if trim ≥ log.entries.length then [] else log.entries.drop trim
      (.ok (), ⟨⟨entries, lastIncludedIndex, lastIncludedTerm⟩, wal⟩)

def RaftLog.installSnapshot (log : RaftLog) (lastIncludedIndex lastIncludedTerm : ℕ) :
    Except WalError Unit × RaftLog :=
  if lastIncludedIndex ≤ log.snapshotIndex then (.ok (), log)
  else
    match journalSnapshot log.wal lastIncludedIndex lastIncludedTerm with
    | (.error e, wal) => (.error e, { log with wal := wal })
    | (.ok _, wal) =>
      let entries := log.entries.filter (fun e => e.index > lastIncludedIndex)
      (.ok (), ⟨⟨entries, lastIncludedIndex, lastIncludedTerm⟩, wal⟩)

end

@[simp] theorem encodeAppend_length (e : LogEntry) :
    (encodeAppend e).length = 17 + e.data.length := by
  simp [encodeAppend]
  omega

@[simp] theorem encodeTruncate_length (i : ℕ) : (encodeTruncate i).length = 9 := by
  simp [encodeTruncate]

@[simp] theorem encodeSnapshot_length (i t : ℕ) : (encodeSnapshot i t).length = 17 := by
  simp [encodeSnapshot]

theorem decodeAppend_encoded {e : LogEntry} (hi : e.index < 2 ^ 64) (ht : e.term < 2 ^ 64) :
    decodeAppend (leBytes 8 e.index ++ (leBytes 8 e.term ++ e.data)) = some e := by
  have hlen : ¬ (leBytes 8 e.index ++ (leBytes 8 e.term ++ e.data)).length < 16 := by
    simp
    omega
  have hdrop : (leBytes 8 e.index ++ (leBytes 8 e.term ++ e.data)).drop 16 = e.data := by
    rw [show 16 = 8 + 8 from rfl, ← List.drop_drop, drop_leBytes, drop_leBytes]
  rw [decodeAppend, if_neg hlen, hdrop]
  simp only [drop_leBytes, take_leBytes]
  rw [leValue_leBytes_of_lt (w := 8) hi, leValue_leBytes_of_lt (w := 8) ht]

/-- The records a running log writes, decoded as the replay decodes them. -/
theorem replayRecord_append {v : LogView} {e : LogEntry} (hi : e.index < 2 ^ 64)
    (ht : e.term < 2 ^ 64) : replayRecord v (encodeAppend e) = v.replayAppend e := by
  rw [encodeAppend, replayRecord, if_pos rfl, decodeAppend_encoded hi ht]

theorem replayRecord_truncate {v : LogView} {i : ℕ} (hi : i < 2 ^ 64) :
    replayRecord v (encodeTruncate i) = v.replayTruncate i := by
  have htake : (leBytes 8 i).take 8 = leBytes 8 i := by
    rw [← List.append_nil (leBytes 8 i), take_leBytes, List.append_nil]
  rw [encodeTruncate, replayRecord, if_neg (by decide), if_pos rfl, if_pos (by simp), htake,
    leValue_leBytes_of_lt hi]

theorem replayRecord_snapshot {v : LogView} {i t : ℕ} (hi : i < 2 ^ 64) (ht : t < 2 ^ 64) :
    replayRecord v (encodeSnapshot i t) = v.replaySnapshot i t := by
  have htake : (leBytes 8 t).take 8 = leBytes 8 t := by
    rw [← List.append_nil (leBytes 8 t), take_leBytes, List.append_nil]
  rw [encodeSnapshot, replayRecord, if_neg (by decide), if_neg (by decide), if_pos rfl,
    if_pos (by simp), take_leBytes, drop_leBytes, htake, leValue_leBytes_of_lt hi,
    leValue_leBytes_of_lt ht]

@[simp] theorem replay_nil (v : LogView) : replay v [] = v := rfl

@[simp] theorem replay_append (v : LogView) (ps qs : List Bytes) :
    replay v (ps ++ qs) = replay (replay v ps) qs := List.foldl_append

@[simp] theorem replay_singleton (v : LogView) (p : Bytes) :
    replay v [p] = replayRecord v p := rfl

/-- `entries[k]` is the entry at index `snapshotIndex + 1 + k`. -/
def LogView.Contiguous (v : LogView) : Prop :=
  ∀ k e, v.entries[k]? = some e → e.index = v.snapshotIndex + 1 + k

theorem LogView.Contiguous.bounds {v : LogView} (h : v.Contiguous) {e : LogEntry}
    (he : e ∈ v.entries) : v.snapshotIndex < e.index ∧ e.index ≤ v.lastIndex := by
  obtain ⟨k, hk⟩ := List.mem_iff_getElem?.mp he
  have hlt := (List.getElem?_eq_some_iff.mp hk).1
  have := h k e hk
  rw [LogView.lastIndex]
  omega

theorem LogView.Contiguous.push {v : LogView} (h : v.Contiguous) (term : ℕ) (data : Bytes) :
    (v.push term data).Contiguous := by
  intro k e hk
  simp only [LogView.push] at hk ⊢
  rcases Nat.lt_or_ge k v.entries.length with hlt | hge
  · exact h k e (by rwa [List.getElem?_append_left hlt] at hk)
  · rw [List.getElem?_append_right hge] at hk
    have hz : k - v.entries.length = 0 := by
      by_contra hne
      rw [List.getElem?_eq_none (by simp; omega)] at hk
      cases hk
    rw [hz] at hk
    cases hk
    simp only [LogView.lastIndex]
    omega

theorem LogView.Contiguous.cut {v : LogView} (h : v.Contiguous) (i : ℕ) :
    (v.cut i).Contiguous := by
  intro k e hk
  simp only [LogView.cut] at hk ⊢
  rw [List.getElem?_take] at hk
  split at hk
  · exact h k e hk
  · cases hk

@[simp] theorem LogView.push_lastIndex (v : LogView) (term : ℕ) (data : Bytes) :
    (v.push term data).lastIndex = v.lastIndex + 1 := by
  simp [LogView.push, LogView.lastIndex, Nat.add_assoc]

theorem LogView.cut_lastIndex_le (v : LogView) (i : ℕ) : (v.cut i).lastIndex ≤ v.lastIndex := by
  simp only [LogView.cut, LogView.lastIndex, List.length_take]
  omega

/-- Replaying an operation on the log it was made on does what the operation did. -/
theorem LogView.replayAppend_next (v : LogView) (term : ℕ) (data : Bytes) :
    v.replayAppend ⟨term, v.lastIndex + 1, data⟩ = v.push term data := by
  have hgt : v.lastIndex + 1 > v.snapshotIndex := by
    rw [LogView.lastIndex]
    omega
  rw [LogView.replayAppend, if_pos hgt, if_neg (by simp [LogView.lastIndex])]
  rfl

theorem LogView.replayTruncate_inside (v : LogView) {i : ℕ} (hi : v.snapshotIndex < i) :
    v.replayTruncate i = v.cut i := by
  rw [LogView.replayTruncate, LogView.cut]
  by_cases h : i > v.snapshotIndex + 1
  · rw [if_pos h]
  · rw [if_neg h, if_pos (by omega), show i - v.snapshotIndex - 1 = 0 by omega,
      List.take_zero]

theorem LogView.Contiguous.nodup {v : LogView} (h : v.Contiguous) :
    (v.entries.map LogEntry.index).Nodup := by
  rw [List.nodup_iff_injective_get]
  intro a b hab
  have ha := h a.1 _ (List.getElem?_eq_getElem (by simpa using a.2))
  have hb := h b.1 _ (List.getElem?_eq_getElem (by simpa using b.2))
  simp only [List.get_eq_getElem, List.getElem_map] at hab
  exact Fin.ext (by omega)

/-- In a contiguous log the entries above `i` are a tail of the list. -/
theorem LogView.Contiguous.filter_above {v : LogView} (h : v.Contiguous) {i : ℕ}
    (hi : v.snapshotIndex ≤ i) :
    v.entries.filter (fun e => e.index > i) = v.entries.drop (i - v.snapshotIndex) := by
  have hsplit := List.take_append_drop (i - v.snapshotIndex) v.entries
  conv_lhs => rw [← hsplit]
  rw [List.filter_append]
  have hfront : (v.entries.take (i - v.snapshotIndex)).filter (fun e => e.index > i) = [] := by
    refine List.filter_eq_nil_iff.mpr (fun e he => ?_)
    obtain ⟨k, hk⟩ := List.mem_iff_getElem?.mp he
    rw [List.getElem?_take] at hk
    split at hk
    · have := h k e hk
      simp only [decide_eq_true_eq]
      omega
    · cases hk
  have hback : (v.entries.drop (i - v.snapshotIndex)).filter (fun e => e.index > i) =
      v.entries.drop (i - v.snapshotIndex) := by
    refine List.filter_eq_self.mpr (fun e he => ?_)
    obtain ⟨k, hk⟩ := List.mem_iff_getElem?.mp he
    rw [List.getElem?_drop] at hk
    have := h _ e hk
    simp only [decide_eq_true_eq]
    omega
  rw [hfront, hback, List.nil_append]

theorem LogView.Contiguous.above {v : LogView} (h : v.Contiguous) {i : ℕ}
    (hi : v.snapshotIndex ≤ i) (t : ℕ) : (v.replaySnapshot i t).Contiguous := by
  intro k e hk
  simp only [LogView.replaySnapshot] at hk ⊢
  rw [h.filter_above hi, List.getElem?_drop] at hk
  have := h _ e hk
  omega

/-- `compact` drops a front part, `install_snapshot` filters: on a contiguous log, up
to the last index, the two agree. -/
theorem LogView.Contiguous.compacted {v : LogView} (h : v.Contiguous) {i : ℕ}
    (hi : v.snapshotIndex < i) :
    (if min i v.lastIndex - v.snapshotIndex ≥ v.entries.length then []
      else v.entries.drop (min i v.lastIndex - v.snapshotIndex)) =
      v.entries.filter (fun e => e.index > i) := by
  rw [h.filter_above (Nat.le_of_lt hi)]
  by_cases hlen : min i v.lastIndex - v.snapshotIndex ≥ v.entries.length
  · rw [if_pos hlen]
    simp only [LogView.lastIndex] at hlen
    symm
    apply List.drop_eq_nil_of_le
    omega
  · rw [if_neg hlen]
    simp only [LogView.lastIndex] at hlen ⊢
    congr 1
    omega

theorem LogView.Contiguous.empty : LogView.empty.Contiguous := by
  intro k e hk
  simp [LogView.empty] at hk

end ReplicatedLog
