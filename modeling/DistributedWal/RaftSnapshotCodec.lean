import DistributedWal.RaftSnapshot
import DistributedWal.SelfDelimiting

/-! # Snapshot files and payloads read back

The payload of a snapshot is self-delimiting. A truncated payload is refused as soon
as its count is complete; with less than a count the decoder answers with no entries.
The file stores the length of its data in 32 bits, so it reads back for the data whose
length fits and for no other.
-/
namespace RaftSnapshotCodec

open LittleEndianCodec WalEntry ReplicatedLog RaftSnapshot SelfDelimiting

/-- The lists that the count and the fields of a payload can hold. -/
def FitsPayload (es : List LogEntry) : Prop := es.length < 2 ^ 32 ∧ ∀ e ∈ es, Encodable e

theorem payload_readsFront : ReadsFront decodeEntries encodeEntries FitsPayload :=
  fun _ hes rest => decodeEntries_append hes.1 hes.2 rest

/-- Decoding undoes encoding whatever bytes follow, so the encoding is injective and no
payload begins another. -/
theorem payload_round_trips {es : List LogEntry} (hes : FitsPayload es) :
    (∀ rest, decodeEntries (encodeEntries es ++ rest) = some es) ∧
      decodeEntries (encodeEntries es) = some es ∧
      (∀ fs, FitsPayload fs → encodeEntries es = encodeEntries fs → es = fs) ∧
      ∀ fs, FitsPayload fs → encodeEntries es <+: encodeEntries fs → es = fs := by
  have hfree := payload_readsFront.prefixFree
  refine ⟨payload_readsFront es hes, payload_readsFront.exact hes, ?_, ?_⟩
  · intro fs hfs heq
    exact hfree.injOn hes hfs heq
  · intro fs hfs hpre
    exact hfree es fs hes hfs hpre

/-- A payload whose data looks like a header, and an empty one. -/
theorem payload_round_trips_header_bytes :
    decodeEntries (encodeEntries [⟨1, 1, leBytes 8 2 ++ leBytes 8 1⟩, ⟨1, 2, []⟩] ++ [7]) =
      some [⟨1, 1, leBytes 8 2 ++ leBytes 8 1⟩, ⟨1, 2, []⟩] :=
  (payload_round_trips ⟨by decide, by simp [RaftSnapshot.Encodable]⟩).1 [7]

/-- A record cut anywhere is refused. -/
theorem decodeLoop_cut {es : List LogEntry} (hes : ∀ e ∈ es, Encodable e) {p : Bytes}
    (hp : Cut p (es.map encodeEntry).flatten) : decodeLoop es.length p = none := by
  induction es generalizing p with
  | nil => exact absurd hp Cut.not_nil
  | cons e es ih =>
    have he : Encodable e := hes e (by simp)
    rw [List.map_cons, List.flatten_cons] at hp
    rw [List.length_cons]
    rcases hp.of_append with hcut | ⟨q, rfl, hq⟩
    · by_cases hlen : p.length < 20
      · rw [decodeLoop, if_pos hlen]
      · -- the header is whole, so the cut is in the data
        have hform : encodeEntry e = (leBytes 8 e.index ++ (leBytes 8 e.term ++
            leBytes 4 e.data.length)) ++ e.data := by
          rw [encodeEntry, Nat.mod_eq_of_lt he.2.2]
          simp only [List.append_assoc]
        rw [hform] at hcut
        obtain ⟨body, rfl, hbody⟩ := hcut.past_front (by simp; omega)
        simp only [List.append_assoc]
        rw [decodeLoop_header he.1 he.2.1 he.2.2, if_pos hbody.length_lt]
    · rw [decodeLoop_encoded he, ih (fun f hf => hes f (by simp [hf])) hq]
      rfl

theorem decodeEntries_short {p : Bytes} (hp : p.length < 4) : decodeEntries p = some [] := by
  rw [decodeEntries, if_pos hp]

theorem decodeEntries_cut {es : List LogEntry} (hes : FitsPayload es) {p : Bytes}
    (hp : Cut p (encodeEntries es)) (hlen : 4 ≤ p.length) : decodeEntries p = none := by
  rw [encodeEntries, Nat.mod_eq_of_lt hes.1] at hp
  obtain ⟨q, rfl, hq⟩ := hp.past_front (by simpa using hlen)
  rw [decodeEntries, if_neg (Nat.not_lt.mpr hlen), take_leBytes, drop_leBytes,
    leValue_leBytes_of_lt (w := 4) hes.1]
  exact decodeLoop_cut hes.2 hq

/-- A strict prefix that holds the whole count is refused; the guard of the decoder
answers every shorter one with no entries. -/
theorem truncated_payload {es : List LogEntry} (hes : FitsPayload es) {p : Bytes}
    (hp : Cut p (encodeEntries es)) :
    (4 ≤ p.length → decodeEntries p = none) ∧ (p.length < 4 → decodeEntries p = some []) :=
  ⟨decodeEntries_cut hes hp, decodeEntries_short⟩

theorem truncated_payload_one_entry :
    decodeEntries ((encodeEntries [⟨1, 1, [7]⟩]).take 24) = none :=
  have hfits : FitsPayload [⟨1, 1, [7]⟩] := ⟨by decide, by simp [RaftSnapshot.Encodable]⟩
  (truncated_payload hfits ⟨List.take_prefix _ _, by decide⟩).1 (by decide)

/-- Half a count is read as a payload without entries. -/
theorem short_payload_decodes :
    FitsPayload [⟨1, 1, [7]⟩] ∧
      Cut ((encodeEntries [⟨1, 1, [7]⟩]).take 2) (encodeEntries [⟨1, 1, [7]⟩]) ∧
      decodeEntries ((encodeEntries [⟨1, 1, [7]⟩]).take 2) = some [] :=
  ⟨⟨by decide, by simp [RaftSnapshot.Encodable]⟩, ⟨List.take_prefix _ _, by decide⟩, by decide⟩

/-- The saved file loads as the snapshot, and no strict prefix of it loads. -/
def RoundTrips (s : Snapshot) : Prop :=
  Snapshot.load (some s.fileBytes) = .ok (some s) ∧
    ∀ p, Cut p s.fileBytes → ∃ err, Snapshot.load (some p) = .error err

/-- A strict prefix of a file whose length field counts all of the data is refused. -/
theorem load_cut {s : Snapshot} (hi : s.lastIncludedIndex < 2 ^ 64)
    (ht : s.lastIncludedTerm < 2 ^ 64) (hdata : s.data.length < 2 ^ 32) {p : Bytes}
    (hp : Cut p s.fileBytes) : ∃ err, Snapshot.load (some p) = .error err := by
  by_cases hlen : p.length < 20
  · exact ⟨.fileTooShort, by rw [Snapshot.load, if_pos hlen]⟩
  · have hform : s.fileBytes = (leBytes 8 s.lastIncludedIndex ++
        (leBytes 8 s.lastIncludedTerm ++ leBytes 4 s.data.length)) ++ s.data := by
      rw [Snapshot.fileBytes, Nat.mod_eq_of_lt hdata]
      simp only [List.append_assoc]
    rw [hform] at hp
    obtain ⟨body, rfl, hbody⟩ := hp.past_front (by simp; omega)
    simp only [List.append_assoc]
    exact ⟨.dataTruncated, by rw [load_header hi ht hdata, if_pos hbody.length_lt]⟩

/-- What loads is the part of the data that the length field counts. -/
theorem load_eq_iff {s : Snapshot} (hi : s.lastIncludedIndex < 2 ^ 64)
    (ht : s.lastIncludedTerm < 2 ^ 64) :
    Snapshot.load (some s.fileBytes) = .ok (some s) ↔ s.data.length < 2 ^ 32 := by
  rw [load_fileBytes_take hi ht]
  constructor
  · intro h
    have hdata : s.data.take (s.data.length % 2 ^ 32) = s.data :=
      congrArg Snapshot.data (Option.some.inj (Except.ok.inj h))
    have hlen := congrArg List.length hdata
    rw [List.length_take, Nat.min_eq_left (Nat.mod_le _ _)] at hlen
    rw [← hlen]
    exact Nat.mod_lt _ (by decide)
  · intro hdata
    rw [Nat.mod_eq_of_lt hdata, List.take_length]

/-- A snapshot file round-trips exactly when the length of its data fits the field. -/
theorem snapshot_file_round_trips {s : Snapshot} (hi : s.lastIncludedIndex < 2 ^ 64)
    (ht : s.lastIncludedTerm < 2 ^ 64) : RoundTrips s ↔ s.data.length < 2 ^ 32 := by
  constructor
  · intro h
    exact (load_eq_iff hi ht).mp h.1
  · intro hdata
    exact ⟨(load_eq_iff hi ht).mpr hdata, fun p hp => load_cut hi ht hdata hp⟩

theorem snapshot_file_round_trips_hello : RoundTrips ⟨42, 3, [104, 101, 108, 108, 111]⟩ :=
  (snapshot_file_round_trips (by decide) (by decide)).mpr (by decide)

theorem encodeEntries_length (es : List LogEntry) :
    (encodeEntries es).length = 4 + (es.map (fun e => 20 + e.data.length)).sum := by
  rw [encodeEntries, List.length_append, leBytes_length, List.length_flatten, List.map_map]
  congr 2
  refine List.map_congr_left (fun e _ => ?_)
  simp [encodeEntry]
  omega

/-- `count` committed entries with payloads of `len` zero bytes. -/
def zeroEntries (count len : ℕ) : List LogEntry :=
  (List.range count).map (fun k => ⟨1, k + 1, List.replicate len 0⟩)

theorem zeroEntries_length (count len : ℕ) :
    (encodeEntries (zeroEntries count len)).length = 4 + count * (20 + len) := by
  have hconst : (fun k : ℕ => 20 + (List.replicate len (0 : UInt8)).length) =
      fun _ => 20 + len := by
    funext k
    rw [List.length_replicate]
  rw [encodeEntries_length, zeroEntries, List.map_map, Function.comp_def]
  simp only [hconst, List.map_const', List.length_range, List.sum_replicate_nat]

/-- The snapshot of 65 committed entries, each accepted by a segment of 64 MiB, does not
come back from its file. -/
theorem large_snapshot_truncated :
    (∀ e ∈ zeroEntries 65 67108831,
        headerSize + (encodeAppend e).length ≤ 64 * 1024 * 1024) ∧
      ¬ RoundTrips ⟨65, 1, encodeEntries (zeroEntries 65 67108831)⟩ := by
  constructor
  · intro e he
    obtain ⟨k, _, rfl⟩ := List.mem_map.mp he
    rw [encodeAppend_length, List.length_replicate]
    decide
  · intro h
    have hlen := (load_eq_iff (by decide) (by decide)).mp h.1
    have hlen : (encodeEntries (zeroEntries 65 67108831)).length < 2 ^ 32 := hlen
    rw [zeroEntries_length] at hlen
    revert hlen
    decide

end RaftSnapshotCodec
