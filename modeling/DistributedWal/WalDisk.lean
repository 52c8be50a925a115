import DistributedWal.WalContents

/-! # What a WAL asks of the operating system

Every operation as the calls it makes, in order. A call changes what processes see at
once. What an outage leaves is what was synced, and of the rest of a file some prefix.
A removed file stays removed. The checkpoint file is renamed into place without a sync, so
nothing is promised about it.
-/
namespace WalDisk

open LittleEndianCodec WalEntry WalSegment WalEngine WalContents

inductive Syscall where
  | create (id : ℕ)
  | write (id : ℕ) (bytes : Bytes)
  | fsync (id : ℕ)
  | unlink (id : ℕ)
  | replaceCheckpoint (bytes : Bytes)

/-- `synced` is the number of bytes of a file that an outage is sure to leave. A file that
was created and never synced has none, and may be gone altogether. -/
structure Disk where
  dir : Dir
  synced : ℕ → Option ℕ

def Disk.call (d : Disk) : Syscall → Disk
  | .create id =>
    ⟨{ d.dir with
        ids := insert id d.dir.ids, bytes := Function.update d.dir.bytes id [] },
      Function.update d.synced id none⟩
  | .write id bytes => { d with dir := d.dir.appendBytes id bytes }
  | .fsync id =>
    { d with synced := Function.update d.synced id (some (d.dir.bytes id).length) }
  | .unlink id => { d with dir := d.dir.remove id }
  | .replaceCheckpoint bytes => { d with dir := { d.dir with checkpoint := some bytes } }

def Disk.calls (d : Disk) (cs : List Syscall) : Disk := cs.foldl Disk.call d

/-- The directory `d'` is what an outage may leave of the disk. -/
structure Outage (d : Disk) (d' : Dir) : Prop where
  ids : d'.ids ⊆ d.dir.ids
  kept : ∀ id ∈ d.dir.ids, d.synced id ≠ none → id ∈ d'.ids
  cut : ∀ id ∈ d'.ids, ∃ n, (d.synced id).getD 0 ≤ n ∧ d'.bytes id = (d.dir.bytes id).take n

/-- The least that an outage leaves. -/
def Disk.durable (d : Disk) : Dir :=
  { d.dir with
    ids := d.dir.ids.filter (fun id => (d.synced id).isSome)
    bytes := fun id => (d.dir.bytes id).take ((d.synced id).getD 0) }

/-- What is found after an outage is on the device. -/
def settled (d : Dir) : Disk := ⟨d, fun id => some (d.bytes id).length⟩

def flushCalls (s : Segment) : List Syscall := [.write s.id s.writer]

def syncCalls (s : Segment) : List Syscall := flushCalls s ++ [.fsync s.id]

def createCalls (d : Dir) (id : ℕ) : List Syscall := if id ∈ d.ids then [] else [.create id]

def openCalls (d : Dir) : List Syscall :=
  match (listSegments d).getLast? with
  | none => createCalls d 1
  | some _ => []

def rotateCalls (w : Wal) : List Syscall :=
  syncCalls w.active ++ createCalls (w.active.sync w.dir).2 (w.active.id + 1)

def appendEncodedCalls (w : Wal) (encoded : Bytes) : List Syscall :=
  match w.active.append encoded with
  | .error _ => []
  | .ok active => if w.config.syncWrites then syncCalls active else flushCalls active

def checkpointCalls (w : Wal) (sequence : ℕ) : List Syscall :=
  if sequence > w.checkpointSequence then [.replaceCheckpoint (leBytes 8 sequence)] else []

@[simp] theorem calls_nil (d : Disk) : d.calls [] = d := rfl

@[simp] theorem calls_cons (d : Disk) (c : Syscall) (cs : List Syscall) :
    d.calls (c :: cs) = (d.call c).calls cs := rfl

@[simp] theorem calls_append (d : Disk) (cs cs' : List Syscall) :
    d.calls (cs ++ cs') = (d.calls cs).calls cs' := List.foldl_append

theorem outage_durable (d : Disk) : Outage d d.durable := by
  constructor
  · exact Finset.filter_subset _ _
  · intro id hid hsynced
    exact Finset.mem_filter.mpr ⟨hid, Option.isSome_iff_ne_none.mpr hsynced⟩
  · exact fun id _ => ⟨(d.synced id).getD 0, le_rfl, rfl⟩

section

variable [Crc32]

def appendCalls (w : Wal) (data : Bytes) : List Syscall :=
  let encoded := encode w.nextSequence data
  if w.active.wouldOverflow encoded.length then
    match w.rotate with
    | (.error _, _) => rotateCalls w
    | (.ok _, w') => rotateCalls w ++ appendEncodedCalls w' encoded
  else appendEncodedCalls w encoded

def truncateCalls (beforeSequence : ℕ) : List ℕ → Dir → List Syscall
  | [], _ => []
  | sid :: rest, d =>
    match readEntries d sid with
    | .error _ => []
    | .ok entries =>
      if maxSequence entries < beforeSequence then
        .unlink sid :: truncateCalls beforeSequence rest (d.remove sid)
      else truncateCalls beforeSequence rest d

inductive Operation where
  | append (data : Bytes)
  | checkpoint (sequence : ℕ)
  | truncateBefore (beforeSequence : ℕ)
  | sync

def Operation.run (w : Wal) : Operation → Wal
  | .append data => (w.append data).2
  | .checkpoint sequence => w.checkpoint sequence
  | .truncateBefore beforeSequence => (w.truncateBefore beforeSequence).2
  | .sync => w.sync

def Operation.calls (w : Wal) : Operation → List Syscall
  | .append data => appendCalls w data
  | .checkpoint sequence => checkpointCalls w sequence
  | .truncateBefore beforeSequence => truncateCalls beforeSequence w.sealed w.dir
  | .sync => syncCalls w.active

variable {w : Wal} {d : Disk}

omit [Crc32] in
theorem syncCalls_dir (s : Segment) (d : Disk) :
    (d.calls (syncCalls s)).dir = (s.sync d.dir).2 := rfl

omit [Crc32] in
theorem rotateCalls_dir (hd : d.dir = w.dir) :
    (d.calls (rotateCalls w)).dir = w.rotate.2.dir := by
  have hsync := hd ▸ syncCalls_dir w.active d
  simp only [rotateCalls, Wal.rotate, Segment.create, createCalls]
  by_cases hnew : w.active.id + 1 ∈ (w.active.sync w.dir).2.ids
  · have hnew' : (w.active.sync w.dir).1.id + 1 ∈ (w.active.sync w.dir).2.ids := hnew
    simp only [if_pos hnew, if_pos hnew', List.append_nil]
    exact hsync
  · have hnew' : (w.active.sync w.dir).1.id + 1 ∉ (w.active.sync w.dir).2.ids := hnew
    simp only [if_neg hnew, if_neg hnew', calls_append, calls_cons, calls_nil, Disk.call,
      hsync]
    rfl

omit [Crc32] in
theorem appendEncodedCalls_dir (hd : d.dir = w.dir) (seq : ℕ) (encoded : Bytes) :
    (d.calls (appendEncodedCalls w encoded)).dir = (w.appendEncoded seq encoded).2.dir := by
  rw [appendEncodedCalls, Wal.appendEncoded]
  cases w.active.append encoded with
  | error err => exact hd
  | ok active =>
    cases hs : w.config.syncWrites with
    | false => simp [flushCalls, Disk.call, hd, Segment.flush]
    | true => simpa [hd] using syncCalls_dir active d

theorem truncateCalls_dir (b : ℕ) (ids : List ℕ) (d : Disk) :
    (d.calls (truncateCalls b ids d.dir)).dir = (truncateLoop b ids d.dir).2 := by
  induction ids generalizing d with
  | nil => rfl
  | cons sid ids ih =>
    rw [truncateCalls, truncateLoop]
    cases readEntries d.dir sid with
    | error err => rfl
    | ok entries =>
      dsimp only
      split
      · exact ih (d.call (.unlink sid))
      · rw [ih d]
        cases truncateLoop b ids d.dir with
        | mk result dir => cases result <;> rfl

/-- The calls of an operation do to the directory what the operation does. -/
theorem operation_calls_dir (hd : d.dir = w.dir) (op : Operation) :
    (d.calls (op.calls w)).dir = (op.run w).dir := by
  cases op with
  | append data =>
    simp only [Operation.calls, Operation.run, appendCalls, Wal.append]
    split
    · have hrot := rotateCalls_dir hd
      cases hr : w.rotate with
      | mk result w' =>
        rw [hr] at hrot
        cases result with
        | error err => exact hrot
        | ok u =>
          rw [calls_append]
          exact appendEncodedCalls_dir hrot _ _
    · exact appendEncodedCalls_dir hd _ _
  | checkpoint sequence =>
    simp only [Operation.calls, Operation.run, checkpointCalls, Wal.checkpoint,
      advanceCheckpoint]
    split <;> simp [Disk.call, hd]
  | truncateBefore b =>
    simp only [Operation.calls, Operation.run, Wal.truncateBefore]
    rw [← hd, truncateCalls_dir b w.sealed d]
    cases truncateLoop b w.sealed d.dir with
    | mk result dir => cases result <;> rfl
  | sync =>
    simp only [Operation.calls, Operation.run, Wal.sync]
    exact hd ▸ syncCalls_dir w.active d

theorem openCalls_dir {config : WalConfig} (h : Wal.open config d.dir = .ok w) :
    (d.calls (openCalls d.dir)).dir = w.dir := by
  rw [Wal.open] at h
  rw [openCalls]
  cases hlast : (listSegments d.dir).getLast? with
  | none =>
    rw [hlast] at h
    by_cases hnew : 1 ∈ d.dir.ids
    · simp [Segment.create, hnew] at h
    · simp only [Segment.create, if_neg hnew] at h
      cases h
      simp [createCalls, if_neg hnew, Disk.call]
  | some activeId =>
    rw [hlast] at h
    dsimp only at h
    split at h
    · cases h
    · split at h
      · cases h
      · cases h
        rfl

end

end WalDisk
