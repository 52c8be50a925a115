import DistributedWal.WalSegment

/-! # The write-ahead log

The operations of `Wal` on the directory it owns. A result of `Except` beside the new
`Wal` is the `Result` of a `&mut self` method: what was changed before an error stays.
-/
namespace WalEngine

open LittleEndianCodec WalEntry WalSegment

structure WalConfig where
  maxSegmentBytes : ℕ
  syncWrites : Bool
  deriving DecidableEq, Repr

structure Wal where
  config : WalConfig
  active : Segment
  sealed : List ℕ
  checkpointSequence : ℕ
  nextSequence : ℕ
  dir : Dir

variable [Crc32]

/-- The search through the sealed segments, most recent first. -/
def lastSealedSequence (d : Dir) : List ℕ → Except WalError (Option ℕ)
  | [] => .ok none
  | sid :: rest =>
    match readEntries d sid with
    | .error e => .error e
    | .ok entries =>
      match entries.getLast? with
      | some last => .ok (some last.sequence)
      | none => lastSealedSequence d rest

def highestSequenceOnDisk (activeId : ℕ) (sealedIds : List ℕ) (d : Dir) :
    Except WalError (Option ℕ) :=
  match readEntries d activeId with
  | .error e => .error e
  | .ok entries =>
    match entries.getLast? with
    | some last => .ok (some last.sequence)
    | none => lastSealedSequence d sealedIds.reverse

def Wal.open (config : WalConfig) (d : Dir) : Except WalError Wal :=
  match (listSegments d).getLast? with
  | none =>
    match Segment.create d 1 config.maxSegmentBytes with
    | .error e => .error e
    | .ok (seg, d) => .ok ⟨config, seg, [], openCheckpoint d, 1, d⟩
  | some activeId =>
    let sealedIds := (listSegments d).dropLast
    match Segment.openForAppend d activeId config.maxSegmentBytes with
    | .error e => .error e
    | .ok seg =>
      match highestSequenceOnDisk activeId sealedIds d with
      | .error e => .error e
      | .ok highest =>
        let nextSeq := match highest with
          | some s => s + 1
          | none => 1
        .ok ⟨config, seg, sealedIds, openCheckpoint d, nextSeq, d⟩

/-- Seal the active segment and open a fresh one. The old id joins `sealed` before the
new file exists. -/
def Wal.rotate (w : Wal) : Except WalError Unit × Wal :=
  let (active, dir) := w.active.sync w.dir
  let oldId := active.id
  let w := { w with active := active, dir := dir, sealed := w.sealed ++ [oldId] }
  match Segment.create w.dir (oldId + 1) w.config.maxSegmentBytes with
  | .error e => (.error e, w)
  | .ok (newSeg, dir) => (.ok (), { w with active := newSeg, dir := dir })

/-- The second half of `append`, after a rotation when one was due. -/
def Wal.appendEncoded (w : Wal) (seq : ℕ) (encoded : Bytes) : Except WalError ℕ × Wal :=
  match w.active.append encoded with
  | .error e => (.error e, w)
  | .ok active =>
    let (active, dir) := if w.config.syncWrites then active.sync w.dir else active.flush w.dir
    (.ok seq, { w with active := active, dir := dir, nextSequence := seq + 1 })

def Wal.append (w : Wal) (data : Bytes) : Except WalError ℕ × Wal :=
  let seq := w.nextSequence
  let encoded := encode seq data
  if w.active.wouldOverflow encoded.length then
    match w.rotate with
    | (.error e, w) => (.error e, w)
    | (.ok _, w) => w.appendEncoded seq encoded
  else w.appendEncoded seq encoded

def readSealed (d : Dir) : List ℕ → Except WalError (List Entry)
  | [] => .ok []
  | sid :: rest =>
    match readEntries d sid with
    | .error e => .error e
    | .ok entries => (readSealed d rest).map (entries ++ ·)

def Wal.readFrom (w : Wal) (fromSequence : ℕ) : Except WalError (List Entry) :=
  match readSealed w.dir w.sealed with
  | .error e => .error e
  | .ok sealedEntries =>
    match readEntries w.dir w.active.id with
    | .error e => .error e
    | .ok activeEntries =>
      .ok ((sealedEntries ++ activeEntries).filter (fun e => fromSequence ≤ e.sequence))

def Wal.checkpoint (w : Wal) (sequence : ℕ) : Wal :=
  let (current, dir) := advanceCheckpoint w.checkpointSequence sequence w.dir
  { w with checkpointSequence := current, dir := dir }

def Wal.recover (w : Wal) : Except WalError (List Entry) :=
  w.readFrom (w.checkpointSequence + 1)

def maxSequence (entries : List Entry) : ℕ := (entries.map Entry.sequence).foldl max 0

/-- The loop of `truncate_before`: the ids that remain, and the directory after the
deletions made so far. -/
def truncateLoop (beforeSequence : ℕ) : List ℕ → Dir → Except WalError (List ℕ) × Dir
  | [], d => (.ok [], d)
  | sid :: rest, d =>
    match readEntries d sid with
    | .error e => (.error e, d)
    | .ok entries =>
      if maxSequence entries < beforeSequence then
        truncateLoop beforeSequence rest (d.remove sid)
      else
        match truncateLoop beforeSequence rest d with
        | (.error e, d) => (.error e, d)
        | (.ok remaining, d) => (.ok (sid :: remaining), d)

def Wal.truncateBefore (w : Wal) (beforeSequence : ℕ) : Except WalError Unit × Wal :=
  match truncateLoop beforeSequence w.sealed w.dir with
  | (.error e, dir) => (.error e, { w with dir := dir })
  | (.ok remaining, dir) => (.ok (), { w with sealed := remaining, dir := dir })

/-- Force an fsync of the active segment, whatever `syncWrites` says. -/
def Wal.sync (w : Wal) : Wal :=
  let (active, dir) := w.active.sync w.dir
  { w with active := active, dir := dir }

end WalEngine
