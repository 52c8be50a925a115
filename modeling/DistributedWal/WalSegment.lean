import DistributedWal.WalEntry
import Mathlib.Data.Finset.Sort

/-! # Segment files, the checkpoint file and the directory that holds them

A directory keeps its segment files by id (the number in `wal-{id:020}.seg`) and the
bytes of the checkpoint file. The order in which the file system lists segments is
not modelled: `listSegments` sorts by id, as the code does.
-/
namespace WalSegment

open LittleEndianCodec WalEntry

structure Dir where
  ids : Finset ℕ
  bytes : ℕ → Bytes
  checkpoint : Option Bytes

def Dir.empty : Dir := ⟨∅, fun _ => [], none⟩

def Dir.remove (d : Dir) (id : ℕ) : Dir := { d with ids := d.ids.erase id }

def Dir.appendBytes (d : Dir) (id : ℕ) (bs : Bytes) : Dir :=
  { d with bytes := Function.update d.bytes id (d.bytes id ++ bs) }

/-- `writer` holds what the `BufWriter` has not handed to the file yet. -/
structure Segment where
  id : ℕ
  writer : Bytes
  size : ℕ
  maxBytes : ℕ
  deriving DecidableEq, Repr

/-- `create_new(true)`: fails when the file is there already. -/
def Segment.create (d : Dir) (id maxBytes : ℕ) : Except WalError (Segment × Dir) :=
  if id ∈ d.ids then .error (.io .alreadyExists)
  else .ok (⟨id, [], 0, maxBytes⟩,
    { d with ids := insert id d.ids, bytes := Function.update d.bytes id [] })

def Segment.openForAppend (d : Dir) (id maxBytes : ℕ) : Except WalError Segment :=
  if id ∈ d.ids then .ok ⟨id, [], (d.bytes id).length, maxBytes⟩
  else .error (.io .notFound)

def Segment.append (s : Segment) (encoded : Bytes) : Except WalError Segment :=
  let newSize := s.size + encoded.length
  if newSize > s.maxBytes then .error (.segmentFull s.size s.maxBytes encoded.length)
  else .ok { s with writer := s.writer ++ encoded, size := newSize }

def Segment.flush (s : Segment) (d : Dir) : Segment × Dir :=
  ({ s with writer := [] }, d.appendBytes s.id s.writer)

/-- `sync` flushes and then waits for the device, which changes no contents. -/
def Segment.sync (s : Segment) (d : Dir) : Segment × Dir := s.flush d

def Segment.wouldOverflow (s : Segment) (encodedLen : ℕ) : Bool :=
  decide (s.size + encodedLen > s.maxBytes)

def listSegments (d : Dir) : List ℕ := d.ids.sort

/-- A checkpoint file shorter than 8 bytes counts as 0. -/
def openCheckpoint (d : Dir) : ℕ :=
  match d.checkpoint with
  | none => 0
  | some bytes => if 8 ≤ bytes.length then leValue (bytes.take 8) else 0

def advanceCheckpoint (current sequence : ℕ) (d : Dir) : ℕ × Dir :=
  if sequence > current then (sequence, { d with checkpoint := some (leBytes 8 sequence) })
  else (current, d)

theorem openCheckpoint_leBytes {d : Dir} {c : ℕ} (hc : c < 2 ^ 64)
    (hd : d.checkpoint = some (leBytes 8 c)) : openCheckpoint d = c := by
  have htake : (leBytes 8 c).take 8 = leBytes 8 c := by
    rw [← List.append_nil (leBytes 8 c), take_leBytes, List.append_nil]
  simp only [openCheckpoint, hd, leBytes_length, le_refl, if_true, htake]
  exact leValue_leBytes_of_lt hc

theorem listSegments_eq {d : Dir} {l : List ℕ} (hs : l.Pairwise (· < ·))
    (hd : d.ids = l.toFinset) : listSegments d = l := by
  have hnodup : l.Nodup := hs.imp (fun h => Nat.ne_of_lt h)
  rw [listSegments, hd]
  exact (List.toFinset_sort (· ≤ ·) hnodup).mpr (hs.imp Nat.le_of_lt)

variable [Crc32]

def readEntries (d : Dir) (id : ℕ) : Except WalError (List Entry) :=
  if id ∈ d.ids then readRaw (d.bytes id) else .error (.io .notFound)

theorem readEntries_encodeAll {d : Dir} {id : ℕ} {es : List Entry} (hid : id ∈ d.ids)
    (hb : d.bytes id = encodeAll es) (hes : ∀ e ∈ es, e.Fits) :
    readEntries d id = .ok es := by
  rw [readEntries, if_pos hid, hb, readRaw_encodeAll hes]

end WalSegment
