import DistributedWal.ReplicatedLog

/-! # Snapshots: the file and the payload -/
namespace RaftSnapshot

open LittleEndianCodec ReplicatedLog

structure Snapshot where
  lastIncludedIndex : ℕ
  lastIncludedTerm : ℕ
  data : Bytes
  deriving DecidableEq, Repr

inductive SnapshotError where
  | fileTooShort
  | dataTruncated
  deriving DecidableEq, Repr

/-- What `save` writes to `snapshot.tmp` and renames to `snapshot`. -/
def Snapshot.fileBytes (s : Snapshot) : Bytes :=
  leBytes 8 s.lastIncludedIndex ++ (leBytes 8 s.lastIncludedTerm ++
    (leBytes 4 (s.data.length % 2 ^ 32) ++ s.data))

def Snapshot.load (file : Option Bytes) : Except SnapshotError (Option Snapshot) :=
  match file with
  | none => .ok none
  | some buf =>
    if buf.length < 20 then .error .fileTooShort
    else
      let lastIncludedIndex := leValue (buf.take 8)
      let lastIncludedTerm := leValue ((buf.drop 8).take 8)
      let dataLen := leValue ((buf.drop 16).take 4)
      if buf.length < 20 + dataLen then .error .dataTruncated
      else .ok (some ⟨lastIncludedIndex, lastIncludedTerm, (buf.drop 20).take dataLen⟩)

def encodeEntry (e : LogEntry) : Bytes :=
  leBytes 8 e.index ++ (leBytes 8 e.term ++ (leBytes 4 (e.data.length % 2 ^ 32) ++ e.data))

def encodeEntries (entries : List LogEntry) : Bytes :=
  leBytes 4 (entries.length % 2 ^ 32) ++ (entries.map encodeEntry).flatten

/-- The loop of `decode_entries`: `rest` is `data[pos..]`. -/
def decodeLoop : ℕ → Bytes → Option (List LogEntry)
  | 0, _ => some []
  | count + 1, rest =>
    if 20 > rest.length then none
    else
      let index := leValue (rest.take 8)
      let term := leValue ((rest.drop 8).take 8)
      let len := leValue ((rest.drop 16).take 4)
      if len > (rest.drop 20).length then none
      else
        (decodeLoop count ((rest.drop 20).drop len)).map
          (⟨term, index, (rest.drop 20).take len⟩ :: ·)

def decodeEntries (data : Bytes) : Option (List LogEntry) :=
  if data.length < 4 then some []
  else decodeLoop (leValue (data.take 4)) (data.drop 4)

/-- Loading a file with a full header: the length field decides. -/
theorem load_header {i t n : ℕ} (hi : i < 2 ^ 64) (ht : t < 2 ^ 64) (hn : n < 2 ^ 32)
    (body : Bytes) :
    Snapshot.load (some (leBytes 8 i ++ (leBytes 8 t ++ (leBytes 4 n ++ body)))) =
      if body.length < n then .error .dataTruncated
      else .ok (some ⟨i, t, body.take n⟩) := by
  set buf := leBytes 8 i ++ (leBytes 8 t ++ (leBytes 4 n ++ body)) with hbuf
  have hlen : buf.length = 20 + body.length := by
    simp [hbuf]
    omega
  have h16 : buf.drop 16 = leBytes 4 n ++ body := by
    rw [show 16 = 8 + 8 from rfl, ← List.drop_drop, drop_leBytes, drop_leBytes]
  have h20 : buf.drop 20 = body := by
    rw [show 20 = 16 + 4 from rfl, ← List.drop_drop, h16, drop_leBytes]
  have hcount : leValue ((buf.drop 16).take 4) = n := by
    rw [h16, take_leBytes, leValue_leBytes_of_lt (w := 4) hn]
  have hindex : leValue (buf.take 8) = i := by
    rw [hbuf, take_leBytes, leValue_leBytes_of_lt (w := 8) hi]
  have hterm : leValue ((buf.drop 8).take 8) = t := by
    rw [hbuf, drop_leBytes, take_leBytes, leValue_leBytes_of_lt (w := 8) ht]
  simp only [Snapshot.load, hcount, hindex, hterm, h20, hlen, Nat.add_lt_add_iff_left]
  rw [if_neg (by omega)]

/-- A saved snapshot loads with its index and term, and as much of its data as the
length field counts. -/
theorem load_fileBytes_take {s : Snapshot} (hi : s.lastIncludedIndex < 2 ^ 64)
    (ht : s.lastIncludedTerm < 2 ^ 64) :
    Snapshot.load (some s.fileBytes) =
      .ok (some ⟨s.lastIncludedIndex, s.lastIncludedTerm,
        s.data.take (s.data.length % 2 ^ 32)⟩) := by
  have hle : ¬ s.data.length < s.data.length % 2 ^ 32 := Nat.not_lt.mpr (Nat.mod_le _ _)
  rw [Snapshot.fileBytes, load_header hi ht (Nat.mod_lt _ (by decide)), if_neg hle]

/-- A saved snapshot loads with its index and term, whatever its data. -/
theorem load_fileBytes {s : Snapshot} (hi : s.lastIncludedIndex < 2 ^ 64)
    (ht : s.lastIncludedTerm < 2 ^ 64) :
    ∃ data, Snapshot.load (some s.fileBytes) =
      .ok (some ⟨s.lastIncludedIndex, s.lastIncludedTerm, data⟩) ∧
      (s.data.length < 2 ^ 32 → data = s.data) := by
  refine ⟨_, load_fileBytes_take hi ht, fun hdata => ?_⟩
  rw [Nat.mod_eq_of_lt hdata, List.take_length]

/-- The fields of an entry that the snapshot payload can hold. -/
def Encodable (e : LogEntry) : Prop :=
  e.index < 2 ^ 64 ∧ e.term < 2 ^ 64 ∧ e.data.length < 2 ^ 32

/-- Decoding a record with a full header: the length field decides. -/
theorem decodeLoop_header {i t n : ℕ} (hi : i < 2 ^ 64) (ht : t < 2 ^ 64) (hn : n < 2 ^ 32)
    (count : ℕ) (body : Bytes) :
    decodeLoop (count + 1) (leBytes 8 i ++ (leBytes 8 t ++ (leBytes 4 n ++ body))) =
      if n > body.length then none
      else (decodeLoop count (body.drop n)).map (⟨t, i, body.take n⟩ :: ·) := by
  set buf := leBytes 8 i ++ (leBytes 8 t ++ (leBytes 4 n ++ body)) with hbuf
  have hlen : buf.length = 20 + body.length := by
    simp [hbuf]
    omega
  have h16 : buf.drop 16 = leBytes 4 n ++ body := by
    rw [show 16 = 8 + 8 from rfl, ← List.drop_drop, drop_leBytes, drop_leBytes]
  have h20 : buf.drop 20 = body := by
    rw [show 20 = 16 + 4 from rfl, ← List.drop_drop, h16, drop_leBytes]
  have hcount : leValue ((buf.drop 16).take 4) = n := by
    rw [h16, take_leBytes, leValue_leBytes_of_lt (w := 4) hn]
  have hindex : leValue (buf.take 8) = i := by
    rw [hbuf, take_leBytes, leValue_leBytes_of_lt (w := 8) hi]
  have hterm : leValue ((buf.drop 8).take 8) = t := by
    rw [hbuf, drop_leBytes, take_leBytes, leValue_leBytes_of_lt (w := 8) ht]
  rw [decodeLoop, if_neg (by omega)]
  simp only [hcount, hindex, hterm, h20]

theorem decodeLoop_encoded {e : LogEntry} (he : Encodable e) (count : ℕ) (rest : Bytes) :
    decodeLoop (count + 1) (encodeEntry e ++ rest) =
      (decodeLoop count rest).map (e :: ·) := by
  obtain ⟨hi, ht, hd⟩ := he
  have hform : encodeEntry e ++ rest = leBytes 8 e.index ++ (leBytes 8 e.term ++
      (leBytes 4 e.data.length ++ (e.data ++ rest))) := by
    rw [encodeEntry, Nat.mod_eq_of_lt hd]
    simp only [List.append_assoc]
  rw [hform, decodeLoop_header hi ht hd, if_neg (by simp), List.drop_left' rfl,
    List.take_left' rfl]

theorem decodeLoop_encodedAll {es : List LogEntry} (hes : ∀ e ∈ es, Encodable e)
    (rest : Bytes) :
    decodeLoop es.length ((es.map encodeEntry).flatten ++ rest) = some es := by
  induction es with
  | nil => rfl
  | cons e es ih =>
    rw [List.length_cons, List.map_cons, List.flatten_cons, List.append_assoc,
      decodeLoop_encoded (hes e (by simp)), ih (fun f hf => hes f (by simp [hf]))]
    rfl

/-- What follows the encoding of a payload is never looked at. -/
theorem decodeEntries_append {es : List LogEntry} (hcount : es.length < 2 ^ 32)
    (hes : ∀ e ∈ es, Encodable e) (rest : Bytes) :
    decodeEntries (encodeEntries es ++ rest) = some es := by
  have hlen : ¬ (encodeEntries es ++ rest).length < 4 := by simp [encodeEntries]
  rw [decodeEntries, if_neg hlen, encodeEntries, List.append_assoc, take_leBytes,
    drop_leBytes, Nat.mod_eq_of_lt hcount, leValue_leBytes_of_lt (w := 4) hcount]
  exact decodeLoop_encodedAll hes rest

/-- Snapshot payloads decode to the entries they were made from. -/
theorem decodeEntries_encodeEntries {es : List LogEntry} (hcount : es.length < 2 ^ 32)
    (hes : ∀ e ∈ es, Encodable e) : decodeEntries (encodeEntries es) = some es := by
  have h := decodeEntries_append hcount hes []
  rwa [List.append_nil] at h

end RaftSnapshot
