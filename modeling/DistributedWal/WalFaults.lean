import DistributedWal.WalEngine

/-! # The write-ahead log on a disk that fails

The operations of `WalEngine` again, with the answers of the operating system to their
calls as an argument. A write or a flush that fails has let the first bytes through;
the `BufWriter` keeps the rest of what it held. Without faults the operations are those
of `WalEngine`.
-/
namespace WalFaults

open LittleEndianCodec WalEntry WalSegment WalEngine

/-- How the calls of one `append` end, in their order. A write or a flush that fails after
`n` bytes is `some n`; any other call that fails is `true`. -/
structure AppendFaults where
  rotateFlush : Option ℕ
  rotateSync : Bool
  create : Bool
  write : Option ℕ
  flush : Option ℕ
  sync : Bool
  deriving DecidableEq, Repr

def AppendFaults.none : AppendFaults := ⟨.none, false, false, .none, .none, false⟩

/-- How the reading and the deletion of one sealed segment end. -/
structure SegmentFaults where
  read : Bool
  remove : Bool
  deriving DecidableEq, Repr

def SegmentFaults.none : SegmentFaults := ⟨false, false⟩

def Segment.flushUnder (s : Segment) (d : Dir) :
    Option ℕ → Except WalError Unit × Segment × Dir
  | .none => (.ok (), s.flush d)
  | some n => (.error (.io .other), { s with writer := s.writer.drop n },
      d.appendBytes s.id (s.writer.take n))

def Segment.syncUnder (s : Segment) (d : Dir) (flush : Option ℕ) (sync : Bool) :
    Except WalError Unit × Segment × Dir :=
  match Segment.flushUnder s d flush with
  | (.error e, s, d) => (.error e, s, d)
  | (.ok _, s, d) => if sync then (.error (.io .other), s, d) else (.ok (), s, d)

def Segment.createUnder (d : Dir) (id maxBytes : ℕ) (create : Bool) :
    Except WalError (Segment × Dir) :=
  if create then .error (.io .other) else Segment.create d id maxBytes

/-- A `write_all` that fails has flushed what was buffered before it writes the rest. -/
def Segment.appendUnder (s : Segment) (d : Dir) (encoded : Bytes) (write : Option ℕ) :
    Except WalError Unit × Segment × Dir :=
  match s.append encoded with
  | .error e => (.error e, s, d)
  | .ok s' =>
    match write with
    | .none => (.ok (), s', d)
    | some n => (.error (.io .other), { s with writer := s.writer.drop n },
        d.appendBytes s.id ((s.writer ++ encoded).take n))

def Wal.rotateUnder (w : Wal) (f : AppendFaults) : Except WalError Unit × Wal :=
  match Segment.syncUnder w.active w.dir f.rotateFlush f.rotateSync with
  | (.error e, active, dir) => (.error e, { w with active := active, dir := dir })
  | (.ok _, active, dir) =>
    let oldId := active.id
    let w := { w with active := active, dir := dir, sealed := w.sealed ++ [oldId] }
    match Segment.createUnder w.dir (oldId + 1) w.config.maxSegmentBytes f.create with
    | .error e => (.error e, w)
    | .ok (newSeg, dir) => (.ok (), { w with active := newSeg, dir := dir })

def Wal.appendEncodedUnder (w : Wal) (f : AppendFaults) (seq : ℕ) (encoded : Bytes) :
    Except WalError ℕ × Wal :=
  match Segment.appendUnder w.active w.dir encoded f.write with
  | (.error e, active, dir) => (.error e, { w with active := active, dir := dir })
  | (.ok _, active, dir) =>
    match if w.config.syncWrites then Segment.syncUnder active dir f.flush f.sync
      else Segment.flushUnder active dir f.flush with
    | (.error e, active, dir) => (.error e, { w with active := active, dir := dir })
    | (.ok _, active, dir) =>
      (.ok seq, { w with active := active, dir := dir, nextSequence := seq + 1 })

variable [Crc32]

def Wal.appendUnder (w : Wal) (f : AppendFaults) (data : Bytes) : Except WalError ℕ × Wal :=
  let seq := w.nextSequence
  let encoded := encode seq data
  if w.active.wouldOverflow encoded.length then
    match Wal.rotateUnder w f with
    | (.error e, w) => (.error e, w)
    | (.ok _, w) => Wal.appendEncodedUnder w f seq encoded
  else Wal.appendEncodedUnder w f seq encoded

/-- The loop of `truncate_before`; `f k` is for the segment at position `k` of the list. -/
def truncateLoopUnder (beforeSequence : ℕ) :
    (ℕ → SegmentFaults) → List ℕ → Dir → Except WalError (List ℕ) × Dir
  | _, [], d => (.ok [], d)
  | f, sid :: rest, d =>
    match if (f 0).read then .error (.io .other) else readEntries d sid with
    | .error e => (.error e, d)
    | .ok entries =>
      if maxSequence entries < beforeSequence then
        if (f 0).remove then (.error (.io .other), d)
        else truncateLoopUnder beforeSequence (fun k => f (k + 1)) rest (d.remove sid)
      else
        match truncateLoopUnder beforeSequence (fun k => f (k + 1)) rest d with
        | (.error e, d) => (.error e, d)
        | (.ok remaining, d) => (.ok (sid :: remaining), d)

def Wal.truncateBeforeUnder (w : Wal) (f : ℕ → SegmentFaults) (beforeSequence : ℕ) :
    Except WalError Unit × Wal :=
  match truncateLoopUnder beforeSequence f w.sealed w.dir with
  | (.error e, dir) => (.error e, { w with dir := dir })
  | (.ok remaining, dir) => (.ok (), { w with sealed := remaining, dir := dir })

omit [Crc32] in
theorem rotateUnder_none (w : Wal) : Wal.rotateUnder w .none = w.rotate := by
  simp only [Wal.rotateUnder, Wal.rotate, Segment.syncUnder, Segment.flushUnder,
    Segment.createUnder, AppendFaults.none, Segment.sync]
  rfl

omit [Crc32] in
theorem appendEncodedUnder_none (w : Wal) (seq : ℕ) (encoded : Bytes) :
    Wal.appendEncodedUnder w .none seq encoded = w.appendEncoded seq encoded := by
  simp only [Wal.appendEncodedUnder, Wal.appendEncoded, Segment.appendUnder, Segment.syncUnder,
    Segment.flushUnder, AppendFaults.none, Segment.sync, ite_self]
  cases w.active.append encoded with
  | error e => rfl
  | ok active => cases hsync : w.config.syncWrites <;> simp

/-- Without faults an append is the append of `WalEngine`. -/
theorem appendUnder_none (w : Wal) (data : Bytes) :
    Wal.appendUnder w .none data = w.append data := by
  simp only [Wal.appendUnder, rotateUnder_none, appendEncodedUnder_none]
  rfl

theorem truncateLoopUnder_none (b : ℕ) (ids : List ℕ) (d : Dir) :
    truncateLoopUnder b (fun _ => .none) ids d = truncateLoop b ids d := by
  induction ids generalizing d with
  | nil => rfl
  | cons sid rest ih =>
    rw [truncateLoopUnder]
    simp only [ih, show SegmentFaults.none.read = false from rfl,
      show SegmentFaults.none.remove = false from rfl, Bool.false_eq_true, if_false]
    rfl

/-- Without faults a truncation is the truncation of `WalEngine`. -/
theorem truncateBeforeUnder_none (w : Wal) (b : ℕ) :
    Wal.truncateBeforeUnder w (fun _ => .none) b = w.truncateBefore b := by
  simp only [Wal.truncateBeforeUnder, truncateLoopUnder_none]
  rfl

end WalFaults
