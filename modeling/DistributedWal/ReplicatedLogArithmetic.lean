import DistributedWal.CheckedArithmetic
import DistributedWal.ReplicatedLogContents

/-! # The index arithmetic of the replicated log

The functions of the log again, with each addition and subtraction of `u64` values and each
slice as the source writes it. `none` says that one of them leaves its range; otherwise the
result is that of the functions on the naturals.
-/
namespace ReplicatedLogArithmetic

open LittleEndianCodec WalEntry WalSegment WalEngine WalContents ReplicatedLog
open CheckedArithmetic

def lastIndexChecked (v : LogView) : Option ℕ :=
  checkedAdd 64 v.snapshotIndex v.entries.length

/-- `index - self.snapshot_index - 1`. -/
def offsetChecked (v : LogView) (index : ℕ) : Option ℕ := do
  let distance ← checkedSub index v.snapshotIndex
  checkedSub distance 1

def termAtChecked (v : LogView) (index : ℕ) : Option (Option ℕ) :=
  if index = 0 then some none
  else if index = v.snapshotIndex then some (some v.snapshotTerm)
  else if index < v.snapshotIndex then some none
  else do
    let offset ← offsetChecked v index
    some ((v.entries[offset]?).map LogEntry.term)

def entriesFromChecked (v : LogView) (fromIndex : ℕ) : Option (List LogEntry) := do
  let first ← checkedAdd 64 v.snapshotIndex 1
  let start := max fromIndex first
  if start = 0 then some []
  else do
    let last ← lastIndexChecked v
    if start > last then some []
    else do
      let offset ← offsetChecked v start
      sliceFrom v.entries offset

/-- The subtraction that gives the offset is `saturating_sub`. -/
def replayAppendChecked (v : LogView) (e : LogEntry) : Option LogView := do
  let first ← checkedAdd 64 v.snapshotIndex 1
  let offset := e.index - first
  if e.index > v.snapshotIndex then
    if offset < v.entries.length then some { v with entries := v.entries.set offset e }
    else some { v with entries := v.entries ++ [e] }
  else some v

def replayTruncateChecked (v : LogView) (fromIndex : ℕ) : Option LogView := do
  let first ← checkedAdd 64 v.snapshotIndex 1
  if fromIndex > first then do
    let trimTo ← offsetChecked v fromIndex
    some { v with entries := v.entries.take trimTo }
  else do
    let first ← checkedAdd 64 v.snapshotIndex 1
    if fromIndex = first then some { v with entries := [] } else some v

def replayRecordChecked (v : LogView) (payload : Bytes) : Option LogView :=
  match payload with
  | [] => some v
  | kind :: rest =>
    if kind = kindAppend then
      match decodeAppend rest with
      | some e => replayAppendChecked v e
      | none => some v
    else if kind = kindTruncate then
      if payload.length ≥ 9 then replayTruncateChecked v (leValue (rest.take 8)) else some v
    else if kind = kindSnapshot then
      if payload.length ≥ 17 then
        some (v.replaySnapshot (leValue (rest.take 8)) (leValue ((rest.drop 8).take 8)))
      else some v
    else some v

def replayChecked (v : LogView) (payloads : List Bytes) : Option LogView :=
  payloads.foldlM replayRecordChecked v

section

variable [Crc32]

def openChecked (config : WalConfig) (d : Dir) : Option (Except WalError RaftLog) :=
  match Wal.open config d with
  | .error e => some (.error e)
  | .ok wal =>
    match wal.readFrom 1 with
    | .error e => some (.error e)
    | .ok all => do
      let view ← replayChecked LogView.empty (all.map Entry.data)
      some (.ok ⟨view, wal⟩)

def appendChecked (log : RaftLog) (term : ℕ) (data : Bytes) :
    Option (Except WalError ℕ × RaftLog) := do
  let last ← lastIndexChecked log.toLogView
  let index ← checkedAdd 64 last 1
  let entry : LogEntry := ⟨term, index, data⟩
  match log.wal.append (encodeAppend entry) with
  | (.error e, wal) => some (.error e, { log with wal := wal })
  | (.ok _, wal) => some (.ok index, { log with wal := wal, entries := log.entries ++ [entry] })

def truncateFromChecked (log : RaftLog) (fromIndex : ℕ) :
    Option (Except WalError Unit × RaftLog) :=
  if fromIndex ≤ log.snapshotIndex then some (.ok (), log)
  else do
    let last ← lastIndexChecked log.toLogView
    if fromIndex > last then some (.ok (), log)
    else
      match log.wal.append (encodeTruncate fromIndex) with
      | (.error e, wal) => some (.error e, { log with wal := wal })
      | (.ok _, wal) => do
        let trimTo ← offsetChecked log.toLogView fromIndex
        some (.ok (), { log with wal := wal, entries := log.entries.take trimTo })

def compactChecked (log : RaftLog) (lastIncludedIndex lastIncludedTerm : ℕ) :
    Option (Except WalError Unit × RaftLog) :=
  if lastIncludedIndex ≤ log.snapshotIndex then some (.ok (), log)
  else
    match journalSnapshot log.wal lastIncludedIndex lastIncludedTerm with
    | (.error e, wal) => some (.error e, { log with wal := wal })
    | (.ok _, wal) => do
      let last ← lastIndexChecked log.toLogView
      let trim ← checkedSub (min lastIncludedIndex last) log.snapshotIndex
      let entries ←
        if trim ≥ log.entries.length then some [] else sliceFrom log.entries trim
      some (.ok (), ⟨⟨entries, lastIncludedIndex, lastIncludedTerm⟩, wal⟩)

end

section

variable {v : LogView}

theorem lastIndexChecked_eq (h : v.lastIndex < 2 ^ 64) : lastIndexChecked v = some v.lastIndex :=
  checkedAdd_fits h

theorem offsetChecked_eq {index : ℕ} (h : v.snapshotIndex < index) :
    offsetChecked v index = some (index - v.snapshotIndex - 1) := by
  rw [offsetChecked, checkedSub_fits (Nat.le_of_lt h)]
  exact checkedSub_fits (Nat.sub_pos_of_lt h)

/-- Looking up a term never leaves the range. -/
theorem termAtChecked_eq (v : LogView) (index : ℕ) :
    termAtChecked v index = some (v.termAt index) := by
  rw [termAtChecked, LogView.termAt]
  by_cases hzero : index = 0
  · rw [if_pos hzero, if_pos hzero]
  · rw [if_neg hzero, if_neg hzero]
    by_cases hpoint : index = v.snapshotIndex
    · rw [if_pos hpoint, if_pos hpoint]
    · rw [if_neg hpoint, if_neg hpoint]
      by_cases hlow : index < v.snapshotIndex
      · rw [if_pos hlow, if_pos hlow]
      · rw [if_neg hlow, if_neg hlow, offsetChecked_eq (by omega)]
        rfl

theorem entriesFromChecked_eq (hpoint : v.snapshotIndex + 1 < 2 ^ 64)
    (hlast : v.lastIndex < 2 ^ 64) (fromIndex : ℕ) :
    entriesFromChecked v fromIndex = some (v.entriesFrom fromIndex) := by
  rw [entriesFromChecked, LogView.entriesFrom, checkedAdd_fits hpoint,
    lastIndexChecked_eq hlast]
  simp only [Option.bind_eq_bind, Option.bind_some]
  set start := max fromIndex (v.snapshotIndex + 1) with hstart
  have hpos : ¬ start = 0 := by omega
  rw [if_neg hpos]
  by_cases hout : start > v.lastIndex
  · rw [if_pos hout, if_pos (Or.inr hout)]
  · rw [if_neg hout, if_neg (not_or.mpr ⟨hpos, hout⟩), offsetChecked_eq (by omega)]
    apply sliceFrom_fits
    rw [LogView.lastIndex] at hout
    omega

/-- No entry can be read behind a snapshot at the largest index. -/
theorem entriesFromChecked_overflows (h : 2 ^ 64 ≤ v.snapshotIndex + 1) (fromIndex : ℕ) :
    entriesFromChecked v fromIndex = none := by
  rw [entriesFromChecked, checkedAdd_overflows h]
  rfl

theorem entriesFromChecked_installed {i : ℕ} (h : 2 ^ 64 ≤ i + 1) (t fromIndex : ℕ) :
    entriesFromChecked (v.replaySnapshot i t) fromIndex = none :=
  entriesFromChecked_overflows h fromIndex

theorem replayAppendChecked_eq (h : v.snapshotIndex + 1 < 2 ^ 64) (e : LogEntry) :
    replayAppendChecked v e = some (v.replayAppend e) := by
  simp only [replayAppendChecked, LogView.replayAppend, checkedAdd_fits h, Option.bind_eq_bind,
    Option.bind_some]
  by_cases hnew : e.index > v.snapshotIndex
  · rw [if_pos hnew, if_pos hnew]
    split <;> rfl
  · rw [if_neg hnew, if_neg hnew]

theorem replayTruncateChecked_eq (h : v.snapshotIndex + 1 < 2 ^ 64) (fromIndex : ℕ) :
    replayTruncateChecked v fromIndex = some (v.replayTruncate fromIndex) := by
  simp only [replayTruncateChecked, LogView.replayTruncate, checkedAdd_fits h,
    Option.bind_eq_bind, Option.bind_some]
  by_cases hcut : fromIndex > v.snapshotIndex + 1
  · rw [if_pos hcut, if_pos hcut, offsetChecked_eq (by omega)]
    rfl
  · rw [if_neg hcut, if_neg hcut]
    split <;> rfl

theorem replayRecordChecked_eq (h : v.snapshotIndex + 1 < 2 ^ 64) (payload : Bytes) :
    replayRecordChecked v payload = some (replayRecord v payload) := by
  cases payload with
  | nil => rfl
  | cons kind rest =>
    rw [replayRecordChecked, replayRecord]
    by_cases happend : kind = kindAppend
    · rw [if_pos happend, if_pos happend]
      cases decodeAppend rest with
      | none => rfl
      | some e => exact replayAppendChecked_eq h e
    · rw [if_neg happend, if_neg happend]
      by_cases htruncate : kind = kindTruncate
      · rw [if_pos htruncate, if_pos htruncate]
        split
        · exact replayTruncateChecked_eq h _
        · rfl
      · rw [if_neg htruncate, if_neg htruncate]
        by_cases hsnapshot : kind = kindSnapshot
        · rw [if_pos hsnapshot, if_pos hsnapshot]
          split <;> rfl
        · rw [if_neg hsnapshot, if_neg hsnapshot]

end

/-- The point of a SNAPSHOT record. -/
def snapshotPoint : Bytes → Option ℕ
  | [] => none
  | kind :: rest =>
    if kind = kindSnapshot then
      if 16 ≤ rest.length then some (leValue (rest.take 8)) else none
    else none

@[simp] theorem snapshotPoint_append (e : LogEntry) : snapshotPoint (encodeAppend e) = none := rfl

@[simp] theorem snapshotPoint_truncate (i : ℕ) : snapshotPoint (encodeTruncate i) = none := rfl

theorem snapshotPoint_snapshot {i : ℕ} (hi : i < 2 ^ 64) (t : ℕ) :
    snapshotPoint (encodeSnapshot i t) = some i := by
  rw [encodeSnapshot, snapshotPoint, if_pos rfl, if_pos (by simp), take_leBytes,
    leValue_leBytes_of_lt hi]

/-- Only a SNAPSHOT record moves the snapshot point. -/
theorem replayRecord_snapshotIndex (v : LogView) (payload : Bytes) :
    (replayRecord v payload).snapshotIndex = (snapshotPoint payload).getD v.snapshotIndex := by
  cases payload with
  | nil => rfl
  | cons kind rest =>
    rw [replayRecord, snapshotPoint]
    by_cases happend : kind = kindAppend
    · have hother : ¬ kind = kindSnapshot := by
        rw [happend]
        decide
      rw [if_pos happend, if_neg hother]
      cases decodeAppend rest with
      | none => rfl
      | some e =>
        dsimp only
        rw [LogView.replayAppend]
        split
        · split <;> rfl
        · rfl
    · rw [if_neg happend]
      by_cases htruncate : kind = kindTruncate
      · have hother : ¬ kind = kindSnapshot := by
          rw [htruncate]
          decide
        rw [if_pos htruncate, if_neg hother]
        split
        · rw [LogView.replayTruncate]
          split
          · rfl
          · split <;> rfl
        · rfl
      · rw [if_neg htruncate]
        by_cases hsnapshot : kind = kindSnapshot
        · rw [if_pos hsnapshot, if_pos hsnapshot, List.length_cons]
          by_cases hlen : 16 ≤ rest.length
          · rw [if_pos (Nat.succ_le_succ hlen), if_pos hlen]
            rfl
          · rw [if_neg (by omega), if_neg hlen]
            rfl
        · rw [if_neg hsnapshot, if_neg hsnapshot]
          rfl

/-- A record adds one entry at most. -/
theorem replayRecord_length (v : LogView) (payload : Bytes) :
    (replayRecord v payload).entries.length ≤ v.entries.length + 1 := by
  cases payload with
  | nil => exact Nat.le_succ _
  | cons kind rest =>
    rw [replayRecord]
    split
    · cases decodeAppend rest with
      | none => exact Nat.le_succ _
      | some e =>
        dsimp only
        rw [LogView.replayAppend]
        split
        · split
          · rw [List.length_set]
            exact Nat.le_succ _
          · rw [List.length_append, List.length_singleton]
        · exact Nat.le_succ _
    · split
      · split
        · rw [LogView.replayTruncate]
          split
          · exact Nat.le_succ_of_le (List.length_take_le' _ _)
          · split
            · exact Nat.zero_le _
            · exact Nat.le_succ _
        · exact Nat.le_succ _
      · split
        · split
          · exact Nat.le_succ_of_le (List.length_filter_le _ _)
          · exact Nat.le_succ _
        · exact Nat.le_succ _

theorem replay_length (v : LogView) (payloads : List Bytes) :
    (replay v payloads).entries.length ≤ v.entries.length + payloads.length := by
  induction payloads generalizing v with
  | nil => exact le_rfl
  | cons p ps ih =>
    have hrest := ih (replayRecord v p)
    have hrecord := replayRecord_length v p
    rw [replay, List.foldl_cons, List.length_cons]
    rw [replay] at hrest
    omega

/-- Every snapshot point in the records leaves room for the index after it. -/
def PointsFit (payloads : List Bytes) : Prop :=
  ∀ p ∈ payloads, ∀ i, snapshotPoint p = some i → i + 1 < 2 ^ 64

theorem PointsFit.snoc {ps : List Bytes} (h : PointsFit ps) {p : Bytes}
    (hp : ∀ i, snapshotPoint p = some i → i + 1 < 2 ^ 64) : PointsFit (ps ++ [p]) := by
  intro q hq i hi
  rcases List.mem_append.mp hq with hold | hnew
  · exact h q hold i hi
  · obtain rfl := List.mem_singleton.mp hnew
    exact hp i hi

/-- A replay stays in range when the points of the journal do. -/
theorem replayChecked_eq {v : LogView} {payloads : List Bytes} (h : PointsFit payloads)
    (hpoint : v.snapshotIndex + 1 < 2 ^ 64) :
    replayChecked v payloads = some (replay v payloads) := by
  have hround : ∀ (p : Bytes) (ps : List Bytes) (w : LogView),
      PointsFit (p :: ps) ∧ w.snapshotIndex + 1 < 2 ^ 64 →
      replayRecordChecked w p = some (replayRecord w p) ∧
        PointsFit ps ∧ (replayRecord w p).snapshotIndex + 1 < 2 ^ 64 := by
    rintro p ps w ⟨hfit, hw⟩
    refine ⟨replayRecordChecked_eq hw p, fun q hq => hfit q (List.mem_cons_of_mem p hq), ?_⟩
    rw [replayRecord_snapshotIndex]
    cases hp : snapshotPoint p with
    | none => exact hw
    | some i => exact hfit p (List.mem_cons_self ..) i hp
  exact (foldlM_fits (I := fun ps w => PointsFit ps ∧ w.snapshotIndex + 1 < 2 ^ 64) hround
    ⟨h, hpoint⟩).1

section

variable [Crc32] {log : RaftLog}

theorem appendChecked_eq (h : log.lastIndex + 1 < 2 ^ 64) (term : ℕ) (data : Bytes) :
    appendChecked log term data = some (log.append term data) := by
  have hindex : checkedAdd 64 log.lastIndex 1 = some (log.lastIndex + 1) := checkedAdd_fits h
  rw [appendChecked, RaftLog.append, lastIndexChecked_eq (Nat.lt_of_succ_lt h)]
  simp only [Option.bind_eq_bind, Option.bind_some, hindex]
  generalize log.wal.append (encodeAppend ⟨term, log.lastIndex + 1, data⟩) = result
  obtain ⟨_ | _, wal⟩ := result <;> rfl

theorem truncateFromChecked_eq (h : log.lastIndex < 2 ^ 64) (fromIndex : ℕ) :
    truncateFromChecked log fromIndex = some (log.truncateFrom fromIndex) := by
  rw [truncateFromChecked, RaftLog.truncateFrom, lastIndexChecked_eq h]
  by_cases hlow : fromIndex ≤ log.snapshotIndex
  · rw [if_pos hlow, if_pos (Or.inl hlow)]
  · rw [if_neg hlow]
    simp only [Option.bind_eq_bind, Option.bind_some]
    by_cases hhigh : fromIndex > log.lastIndex
    · rw [if_pos hhigh, if_pos (Or.inr hhigh)]
    · rw [if_neg hhigh, if_neg (not_or.mpr ⟨hlow, hhigh⟩),
        offsetChecked_eq (Nat.not_le.mp hlow)]
      generalize log.wal.append (encodeTruncate fromIndex) = result
      obtain ⟨_ | _, wal⟩ := result <;> rfl

/-- The part that `compact` drops is in the log. -/
theorem compactChecked_eq (h : log.lastIndex < 2 ^ 64) (i t : ℕ) :
    compactChecked log i t = some (log.compact i t) := by
  rw [compactChecked, RaftLog.compact]
  by_cases hlow : i ≤ log.snapshotIndex
  · rw [if_pos hlow, if_pos hlow]
  · rw [if_neg hlow, if_neg hlow]
    have htrim : checkedSub (min i log.lastIndex) log.snapshotIndex =
        some (min i log.lastIndex - log.snapshotIndex) := by
      apply checkedSub_fits
      rw [LogView.lastIndex]
      omega
    generalize journalSnapshot log.wal i t = result
    obtain ⟨e | u, wal⟩ := result
    · rfl
    · simp only [lastIndexChecked_eq h, Option.bind_eq_bind, Option.bind_some, htrim]
      by_cases hclear : min i log.lastIndex - log.snapshotIndex ≥ log.entries.length
      · rw [if_pos hclear, if_pos hclear]
      · rw [if_neg hclear, if_neg hclear,
          sliceFrom_fits (Nat.le_of_lt (Nat.not_le.mp hclear))]
        rfl

/-- Opening a directory whose records have their points in range. -/
theorem openChecked_eq {w : Wal} {c : Contents} (h : Stores w c)
    (hfit : PointsFit (c.entries.map Entry.data)) :
    openChecked w.config w.dir = some (RaftLog.open w.config w.dir) := by
  obtain ⟨w', hopen, hst, _⟩ := open_spec h
  have hreplay := replayChecked_eq (v := LogView.empty) hfit (by decide)
  simp only [openChecked, RaftLog.open, hopen, hst.readFrom_one, hreplay, Option.bind_eq_bind,
    Option.bind_some]

end

end ReplicatedLogArithmetic
