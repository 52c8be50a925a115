import DistributedWal.WalEngine

/-! # What a write-ahead log holds

The abstract contents are the entries of each sealed segment and of the active one.
`Stores` ties them to the files and to the fields of `Wal`; every operation keeps it.
-/
namespace WalContents

open LittleEndianCodec WalEntry WalSegment WalEngine

structure Contents where
  sealed : List (ℕ × List Entry)
  active : List Entry

def Contents.entries (c : Contents) : List Entry :=
  (c.sealed.map Prod.snd).flatten ++ c.active

def Contents.ids (c : Contents) (activeId : ℕ) : List ℕ :=
  c.sealed.map Prod.fst ++ [activeId]

def Contents.rotated (c : Contents) (activeId : ℕ) : Contents :=
  ⟨c.sealed ++ [(activeId, c.active)], []⟩

def Contents.appended (c : Contents) (e : Entry) : Contents :=
  ⟨c.sealed, c.active ++ [e]⟩

def kept (beforeSequence : ℕ) (ps : List (ℕ × List Entry)) : List (ℕ × List Entry) :=
  ps.filter (fun p => beforeSequence ≤ maxSequence p.2)

def Contents.truncated (c : Contents) (beforeSequence : ℕ) : Contents :=
  ⟨kept beforeSequence c.sealed, c.active⟩

/-- Consecutive positive sequences, the last one right below `next`. -/
def Numbered (next : ℕ) (es : List Entry) : Prop :=
  ∃ first, 0 < first ∧ first + es.length = next ∧
    es.map Entry.sequence = List.range' first es.length

@[simp] theorem rotated_entries (c : Contents) (id : ℕ) :
    (c.rotated id).entries = c.entries := by
  simp [Contents.rotated, Contents.entries]

@[simp] theorem appended_entries (c : Contents) (e : Entry) :
    (c.appended e).entries = c.entries ++ [e] := by
  simp [Contents.appended, Contents.entries]

theorem Numbered.nil {next : ℕ} (h : 0 < next) : Numbered next [] := ⟨next, h, by simp, by simp⟩

theorem Numbered.pos {next : ℕ} {es : List Entry} (h : Numbered next es) : 0 < next := by
  obtain ⟨first, hf, hn, _⟩ := h
  omega

theorem Numbered.snoc {next : ℕ} {es : List Entry} (h : Numbered next es) (data : Bytes) :
    Numbered (next + 1) (es ++ [⟨next, data⟩]) := by
  obtain ⟨first, hf, hn, hs⟩ := h
  refine ⟨first, hf, by simp; omega, ?_⟩
  simp [hs, List.range'_concat, hn]

theorem Numbered.suffix {next : ℕ} {es fs : List Entry} (h : Numbered next fs)
    (hs : es <:+ fs) : Numbered next es := by
  obtain ⟨front, rfl⟩ := hs
  obtain ⟨first, hf, hn, hm⟩ := h
  refine ⟨first + front.length, by omega, by simp at hn; omega, ?_⟩
  have := congrArg (List.drop front.length) hm
  simpa [List.drop_range'] using this

theorem Numbered.bounds {next : ℕ} {es : List Entry} (h : Numbered next es) {e : Entry}
    (he : e ∈ es) : 0 < e.sequence ∧ e.sequence < next := by
  obtain ⟨first, hf, hn, hm⟩ := h
  have : e.sequence ∈ List.range' first es.length := hm ▸ List.mem_map_of_mem he
  have := List.mem_range'_1.mp this
  omega

theorem Numbered.ascending {next : ℕ} {es : List Entry} (h : Numbered next es) :
    (es.map Entry.sequence).Pairwise (· < ·) := by
  obtain ⟨first, _, _, hm⟩ := h
  rw [hm]
  exact List.pairwise_lt_range' 1

theorem Numbered.last {next : ℕ} {es : List Entry} (h : Numbered next es) {e : Entry}
    (he : es.getLast? = some e) : e.sequence + 1 = next := by
  obtain ⟨front, rfl⟩ := List.getLast?_eq_some_iff.mp he
  obtain ⟨first, _, hn, hm⟩ := h.suffix (List.suffix_append front [e])
  simp at hn hm
  omega

theorem foldl_max_lt_iff (l : List ℕ) (a b : ℕ) :
    l.foldl max a < b ↔ a < b ∧ ∀ x ∈ l, x < b := by
  induction l generalizing a with
  | nil => simp
  | cons x l ih =>
    simp only [List.foldl_cons, ih, max_lt_iff, List.forall_mem_cons]
    tauto

theorem maxSequence_lt_iff (es : List Entry) (b : ℕ) :
    maxSequence es < b ↔ 0 < b ∧ ∀ e ∈ es, e.sequence < b := by
  simp [maxSequence, foldl_max_lt_iff]

theorem mem_kept {b : ℕ} {ps : List (ℕ × List Entry)} {p : ℕ × List Entry} :
    p ∈ kept b ps ↔ p ∈ ps ∧ b ≤ maxSequence p.2 := by
  simp [kept]

theorem kept_cons (b : ℕ) (p : ℕ × List Entry) (ps : List (ℕ × List Entry)) :
    kept b (p :: ps) = if b ≤ maxSequence p.2 then p :: kept b ps else kept b ps := by
  simp [kept, List.filter_cons]

/-- Segments dropped after a kept one are empty, so no entry goes with them. -/
theorem kept_flatten_eq {b : ℕ} {ps : List (ℕ × List Entry)}
    (h : ∀ p ∈ ps, p.2 ≠ [] → b ≤ maxSequence p.2) :
    ((kept b ps).map Prod.snd).flatten = (ps.map Prod.snd).flatten := by
  induction ps with
  | nil => rfl
  | cons p ps ih =>
    have ih := ih (fun q hq => h q (List.mem_cons_of_mem p hq))
    rw [kept_cons]
    split
    · simp [ih]
    · rename_i hb
      have hp : p.2 = [] := by
        by_contra hne
        exact hb (h p (by simp) hne)
      simp [ih, hp]

/-- Truncation keeps a suffix: sequences ascend, so the dropped segments come first. -/
theorem kept_flatten_suffix (b : ℕ) {ps : List (ℕ × List Entry)}
    (hasc : ((ps.map Prod.snd).flatten.map Entry.sequence).Pairwise (· < ·)) :
    ((kept b ps).map Prod.snd).flatten <:+ (ps.map Prod.snd).flatten := by
  induction ps with
  | nil => exact List.suffix_rfl
  | cons p ps ih =>
    simp only [List.map_cons, List.flatten_cons, List.map_append, List.pairwise_append] at hasc
    obtain ⟨_, htail, hcross⟩ := hasc
    rw [kept_cons]
    split
    · rename_i hb
      have hall : ((kept b ps).map Prod.snd).flatten = (ps.map Prod.snd).flatten := by
        apply kept_flatten_eq
        intro q hq hne
        by_contra hlt
        obtain ⟨hpos, hq'⟩ := (maxSequence_lt_iff q.2 b).mp (not_le.mp hlt)
        apply not_lt.mpr hb
        refine (maxSequence_lt_iff p.2 b).mpr ⟨hpos, fun e he => ?_⟩
        obtain ⟨f, hf⟩ := List.exists_mem_of_ne_nil _ hne
        have hmem : f ∈ (ps.map Prod.snd).flatten :=
          List.mem_flatten.mpr ⟨q.2, List.mem_map_of_mem hq, hf⟩
        exact (hcross _ (List.mem_map_of_mem he) _ (List.mem_map_of_mem hmem)).trans (hq' f hf)
      simp [hall]
    · simpa using (ih htail).trans (List.suffix_append _ _)

theorem truncated_suffix {c : Contents} (b : ℕ)
    (hasc : (c.entries.map Entry.sequence).Pairwise (· < ·)) :
    (c.truncated b).entries <:+ c.entries := by
  simp only [Contents.entries, List.map_append, List.pairwise_append] at hasc
  obtain ⟨front, hfront⟩ := kept_flatten_suffix b hasc.1
  exact ⟨front, by simp [Contents.entries, Contents.truncated, ← hfront]⟩

theorem truncated_retains {c : Contents} {b : ℕ} {e : Entry} (he : e ∈ c.entries)
    (hb : b ≤ e.sequence) : e ∈ (c.truncated b).entries := by
  rcases List.mem_append.mp he with he | he
  · obtain ⟨l, hl, he⟩ := List.mem_flatten.mp he
    obtain ⟨p, hp, rfl⟩ := List.mem_map.mp hl
    have hmax : b ≤ maxSequence p.2 := by
      by_contra hlt
      have := ((maxSequence_lt_iff p.2 b).mp (not_le.mp hlt)).2 e he
      omega
    apply List.mem_append_left
    exact List.mem_flatten.mpr ⟨p.2, List.mem_map_of_mem (mem_kept.mpr ⟨hp, hmax⟩), he⟩
  · exact List.mem_append_right _ he

/-- The contents after an accepted append: one more entry, in a fresh segment when the
active one had no room. -/
def Contents.grown (c : Contents) (w : Wal) (data : Bytes) : Contents :=
  if w.active.wouldOverflow (headerSize + data.length) then
    (c.rotated w.active.id).appended ⟨w.nextSequence, data⟩
  else c.appended ⟨w.nextSequence, data⟩

@[simp] theorem grown_entries (c : Contents) (w : Wal) (data : Bytes) :
    (c.grown w data).entries = c.entries ++ [⟨w.nextSequence, data⟩] := by
  rw [Contents.grown]
  split <;> simp

/-- What the operations other than `checkpoint` leave alone. -/
structure SameMarks (w w' : Wal) : Prop where
  config : w'.config = w.config
  checkpointSequence : w'.checkpointSequence = w.checkpointSequence
  stored : w'.dir.checkpoint = w.dir.checkpoint

theorem SameMarks.trans {w₁ w₂ w₃ : Wal} (h : SameMarks w₁ w₂) (k : SameMarks w₂ w₃) :
    SameMarks w₁ w₃ :=
  ⟨k.config.trans h.config, k.checkpointSequence.trans h.checkpointSequence,
    k.stored.trans h.stored⟩

/-- With nothing buffered, a sync leaves the directory as it is. -/
theorem sync_flushed {s : Segment} {d : Dir} (h : s.writer = []) : s.sync d = (s, d) := by
  cases s
  cases d
  simp_all [Segment.sync, Segment.flush, Dir.appendBytes]

/-- The record just appended is in the active segment. -/
theorem grown_active (c : Contents) (w : Wal) (data : Bytes) :
    ∃ front, (c.grown w data).active = front ++ [⟨w.nextSequence, data⟩] := by
  rw [Contents.grown]
  split
  · exact ⟨[], rfl⟩
  · exact ⟨c.active, rfl⟩

variable [Crc32]

/-- The files hold the encodings of the contents, whether or not they read back. -/
structure Layout (w : Wal) (c : Contents) : Prop where
  sealed_ids : w.sealed = c.sealed.map Prod.fst
  ascending : (c.ids w.active.id).Pairwise (· < ·)
  files : w.dir.ids = (c.ids w.active.id).toFinset
  sealed_bytes : ∀ p ∈ c.sealed, w.dir.bytes p.1 = encodeAll p.2
  active_bytes : w.dir.bytes w.active.id = encodeAll c.active
  size : w.active.size = (encodeAll c.active).length
  flushed : w.active.writer = []
  cap : w.active.maxBytes = w.config.maxSegmentBytes
  numbered : Numbered w.nextSequence c.entries

/-- The files read back as the contents. -/
structure Stores (w : Wal) (c : Contents) : Prop extends Layout w c where
  fits : ∀ e ∈ c.entries, e.Fits

variable {w : Wal} {c : Contents}

theorem Layout.sealed_lt (h : Layout w c) {p : ℕ × List Entry} (hp : p ∈ c.sealed) :
    p.1 < w.active.id := by
  have := (List.pairwise_append.mp h.ascending).2.2
  exact this p.1 (List.mem_map_of_mem hp) w.active.id (by simp)

theorem Layout.sealed_nodup (h : Layout w c) : (c.sealed.map Prod.fst).Nodup :=
  (List.pairwise_append.mp h.ascending).1.imp Nat.ne_of_lt

theorem Layout.mem_files (h : Layout w c) {id : ℕ} :
    id ∈ w.dir.ids ↔ (∃ p ∈ c.sealed, p.1 = id) ∨ id = w.active.id := by
  simp [h.files, Contents.ids, or_comm]

/-- Whether the next record needs a new segment depends on the contents alone. -/
theorem Layout.wouldOverflow (h : Layout w c) (n : ℕ) :
    w.active.wouldOverflow n =
      decide ((encodeAll c.active).length + n > w.config.maxSegmentBytes) := by
  rw [Segment.wouldOverflow, h.size, h.cap]

theorem Stores.fits_sealed (h : Stores w c) {p : ℕ × List Entry} (hp : p ∈ c.sealed) :
    ∀ e ∈ p.2, e.Fits := by
  intro e he
  apply h.fits
  exact List.mem_append_left _
    (List.mem_flatten.mpr ⟨p.2, List.mem_map_of_mem hp, he⟩)

theorem Stores.fits_active (h : Stores w c) : ∀ e ∈ c.active, e.Fits :=
  fun e he => h.fits e (List.mem_append_right _ he)

theorem Stores.read_sealed (h : Stores w c) {p : ℕ × List Entry} (hp : p ∈ c.sealed) :
    readEntries w.dir p.1 = .ok p.2 :=
  readEntries_encodeAll (h.mem_files.mpr (Or.inl ⟨p, hp, rfl⟩)) (h.sealed_bytes p hp)
    (h.fits_sealed hp)

theorem Stores.read_active (h : Stores w c) :
    readEntries w.dir w.active.id = .ok c.active :=
  readEntries_encodeAll (h.mem_files.mpr (Or.inr rfl)) h.active_bytes h.fits_active

theorem readSealed_eq {d : Dir} {ps : List (ℕ × List Entry)}
    (h : ∀ p ∈ ps, readEntries d p.1 = .ok p.2) :
    readSealed d (ps.map Prod.fst) = .ok (ps.map Prod.snd).flatten := by
  induction ps with
  | nil => rfl
  | cons p ps ih =>
    simp only [List.map_cons, readSealed, h p (by simp),
      ih (fun q hq => h q (List.mem_cons_of_mem p hq)), List.flatten_cons]
    rfl

/-- Reading never fails and filters the contents. -/
theorem Stores.readFrom (h : Stores w c) (k : ℕ) :
    w.readFrom k = .ok (c.entries.filter (fun e => k ≤ e.sequence)) := by
  rw [Wal.readFrom, h.sealed_ids, readSealed_eq (fun p hp => h.read_sealed hp)]
  simp only [h.read_active, Contents.entries]

theorem Stores.readFrom_one (h : Stores w c) : w.readFrom 1 = .ok c.entries := by
  rw [h.readFrom, List.filter_eq_self.mpr]
  intro e he
  exact decide_eq_true (h.numbered.bounds he).1

theorem lastSealedSequence_eq {d : Dir} {ps : List (ℕ × List Entry)}
    (h : ∀ p ∈ ps, readEntries d p.1 = .ok p.2) :
    lastSealedSequence d (ps.map Prod.fst) =
      .ok (((ps.reverse.map Prod.snd).flatten.getLast?).map Entry.sequence) := by
  induction ps with
  | nil => rfl
  | cons p ps ih =>
    have ih := ih (fun q hq => h q (List.mem_cons_of_mem p hq))
    simp only [List.map_cons, lastSealedSequence, h p (by simp)]
    cases hp : p.2.getLast? with
    | none =>
      have : p.2 = [] := by simpa using hp
      simp [ih, this]
    | some e => simp [List.getLast?_append, hp]

theorem highest_eq (h : Stores w c) :
    highestSequenceOnDisk w.active.id w.sealed w.dir =
      .ok (c.entries.getLast?.map Entry.sequence) := by
  rw [highestSequenceOnDisk, h.read_active, h.sealed_ids, ← List.map_reverse]
  dsimp only
  cases ha : c.active.getLast? with
  | some e => simp [Contents.entries, List.getLast?_append, ha]
  | none =>
    have hnil : c.active = [] := by simpa using ha
    have hread : ∀ p ∈ c.sealed.reverse, readEntries w.dir p.1 = .ok p.2 :=
      fun p hp => h.read_sealed (List.mem_reverse.mp hp)
    rw [lastSealedSequence_eq hread, List.reverse_reverse, Contents.entries, hnil,
      List.append_nil]

theorem rotate_layout (h : Layout w c) :
    ∃ w', w.rotate = (.ok (), w') ∧ Layout w' (c.rotated w.active.id) ∧ SameMarks w w' ∧
      w'.nextSequence = w.nextSequence ∧ w'.active.size = 0 := by
  have hlt : ∀ p ∈ c.sealed, p.1 < w.active.id := fun p hp => h.sealed_lt hp
  have hnew : w.active.id + 1 ∉ w.dir.ids := by
    rw [h.mem_files]
    rintro (⟨p, hp, hid⟩ | hid)
    · have := hlt p hp
      omega
    · omega
  rw [Wal.rotate, sync_flushed h.flushed]
  simp only [Segment.create, if_neg hnew]
  refine ⟨_, rfl, ?_, ⟨rfl, rfl, rfl⟩, rfl, rfl⟩
  constructor
  · simp [Contents.rotated, h.sealed_ids]
  · have hasc := h.ascending
    simp only [Contents.ids, Contents.rotated, List.map_append, List.map_cons, List.map_nil]
    refine List.pairwise_append.mpr ⟨hasc, by simp, ?_⟩
    intro a ha b hb
    obtain rfl := List.mem_singleton.mp hb
    rcases List.mem_append.mp ha with ha | ha
    · obtain ⟨p, hp, rfl⟩ := List.mem_map.mp ha
      exact (hlt p hp).trans (Nat.lt_succ_self _)
    · obtain rfl := List.mem_singleton.mp ha
      exact Nat.lt_succ_self _
  · ext id
    simp [h.mem_files, Contents.ids, Contents.rotated]
    tauto
  · intro p hp
    rcases List.mem_append.mp hp with hp | hp
    · have hne : p.1 ≠ w.active.id + 1 := by
        have := hlt p hp
        omega
      simpa [Function.update_of_ne hne] using h.sealed_bytes p hp
    · obtain rfl := List.mem_singleton.mp hp
      simpa using h.active_bytes
  · simp [Contents.rotated]
  · rfl
  · rfl
  · rfl
  · simpa using h.numbered

theorem appendEncoded_layout (h : Layout w c) {data : Bytes}
    (hroom : w.active.size + (headerSize + data.length) ≤ w.config.maxSegmentBytes) :
    ∃ w', w.appendEncoded w.nextSequence (encode w.nextSequence data) =
        (.ok w.nextSequence, w') ∧
      Layout w' (c.appended ⟨w.nextSequence, data⟩) ∧ SameMarks w w' ∧
      w'.nextSequence = w.nextSequence + 1 := by
  have hfull : ¬ w.active.size + (encode w.nextSequence data).length > w.active.maxBytes := by
    rw [encode_length, h.cap]
    omega
  have hflush : ∀ s : Segment, s.sync w.dir = s.flush w.dir := fun _ => rfl
  simp only [Wal.appendEncoded, Segment.append, if_neg hfull, h.flushed, List.nil_append,
    hflush, ite_self, Segment.flush]
  refine ⟨_, rfl, ?_, ⟨rfl, rfl, rfl⟩, rfl⟩
  constructor
  · exact h.sealed_ids
  · exact h.ascending
  · exact h.files
  · intro p hp
    have hne : p.1 ≠ w.active.id := Nat.ne_of_lt (h.sealed_lt hp)
    simpa [Dir.appendBytes, Function.update_of_ne hne] using h.sealed_bytes p hp
  · simp [Dir.appendBytes, Contents.appended, h.active_bytes, Entry.encoded]
  · simp [Contents.appended, h.size, Entry.encoded]
  · rfl
  · exact h.cap
  · simpa using h.numbered.snoc data

/-- A payload that fits in an empty segment is accepted, with the next sequence. -/
theorem append_accepted_layout (h : Layout w c) (data : Bytes)
    (hfit : headerSize + data.length ≤ w.config.maxSegmentBytes) :
    ∃ w', w.append data = (.ok w.nextSequence, w') ∧ Layout w' (c.grown w data) ∧
      SameMarks w w' ∧ w'.nextSequence = w.nextSequence + 1 := by
  simp only [Wal.append, encode_length, Contents.grown]
  split
  · obtain ⟨w₁, hr, hs, hm, hn, hz⟩ := rotate_layout h
    have hroom : w₁.active.size + (headerSize + data.length) ≤ w₁.config.maxSegmentBytes := by
      rw [hz, hm.config]
      omega
    obtain ⟨w₂, he, hs₂, hm₂, hn₂⟩ := appendEncoded_layout hs hroom
    rw [hr]
    simp only [hn] at he hs₂ hn₂
    exact ⟨w₂, he, hs₂, hm.trans hm₂, hn₂⟩
  · rename_i hover
    have hroom : w.active.size + (headerSize + data.length) ≤ w.config.maxSegmentBytes := by
      simpa [Segment.wouldOverflow, h.cap] using hover
    exact appendEncoded_layout h hroom

/-- An append that no segment can hold still rotates before it is refused. -/
theorem append_rejected_layout (h : Layout w c) (data : Bytes)
    (hfit : ¬ headerSize + data.length ≤ w.config.maxSegmentBytes) :
    ∃ w', w.append data =
        (.error (.segmentFull 0 w.config.maxSegmentBytes (headerSize + data.length)), w') ∧
      Layout w' (c.rotated w.active.id) ∧ SameMarks w w' ∧
      w'.nextSequence = w.nextSequence := by
  have hover : w.active.wouldOverflow (headerSize + data.length) = true := by
    simp only [Segment.wouldOverflow, h.cap, decide_eq_true_eq]
    omega
  obtain ⟨w₁, hr, hs, hm, hn, hz⟩ := rotate_layout h
  have hfull : 0 + (headerSize + data.length) > w.config.maxSegmentBytes := by omega
  refine ⟨w₁, ?_, hs, hm, hn⟩
  simp only [Wal.append, encode_length, if_pos hover, hr, Wal.appendEncoded, Segment.append,
    hz, hs.cap, hm.config]
  rw [if_pos hfull]

theorem append_accepted (h : Stores w c) (data : Bytes) (hdata : data.length < 2 ^ 32)
    (hseq : w.nextSequence < 2 ^ 64)
    (hfit : headerSize + data.length ≤ w.config.maxSegmentBytes) :
    ∃ w', w.append data = (.ok w.nextSequence, w') ∧ Stores w' (c.grown w data) ∧
      SameMarks w w' ∧ w'.nextSequence = w.nextSequence + 1 := by
  obtain ⟨w', he, hl, hm, hn⟩ := append_accepted_layout h.toLayout data hfit
  refine ⟨w', he, ⟨hl, ?_⟩, hm, hn⟩
  simpa [or_imp, forall_and] using ⟨h.fits, show Entry.Fits _ from ⟨hseq, hdata⟩⟩

theorem append_rejected (h : Stores w c) (data : Bytes)
    (hfit : ¬ headerSize + data.length ≤ w.config.maxSegmentBytes) :
    ∃ w', w.append data =
        (.error (.segmentFull 0 w.config.maxSegmentBytes (headerSize + data.length)), w') ∧
      Stores w' (c.rotated w.active.id) ∧ SameMarks w w' ∧
      w'.nextSequence = w.nextSequence := by
  obtain ⟨w', he, hl, hm, hn⟩ := append_rejected_layout h.toLayout data hfit
  exact ⟨w', he, ⟨hl, by simpa using h.fits⟩, hm, hn⟩

theorem checkpoint_stores (h : Stores w c) (sequence : ℕ) :
    Stores (w.checkpoint sequence) c := by
  simp only [Wal.checkpoint, advanceCheckpoint]
  split <;> exact ⟨⟨h.sealed_ids, h.ascending, h.files, h.sealed_bytes, h.active_bytes,
    h.size, h.flushed, h.cap, h.numbered⟩, h.fits⟩

/-- The truncation loop drops the segments whose entries all lie below the bound. -/
theorem truncateLoop_spec (b : ℕ) {ps : List (ℕ × List Entry)} {d : Dir}
    (hnodup : (ps.map Prod.fst).Nodup)
    (hread : ∀ p ∈ ps, readEntries d p.1 = .ok p.2) :
    ∃ d', truncateLoop b (ps.map Prod.fst) d = (.ok ((kept b ps).map Prod.fst), d') ∧
      d'.bytes = d.bytes ∧ d'.checkpoint = d.checkpoint ∧
      ∀ id, id ∈ d'.ids ↔ id ∈ d.ids ∧
        (id ∈ ps.map Prod.fst → id ∈ (kept b ps).map Prod.fst) := by
  induction ps generalizing d with
  | nil => exact ⟨d, rfl, rfl, rfl, by simp [kept]⟩
  | cons p ps ih =>
    obtain ⟨hp, hnodup⟩ := List.nodup_cons.mp hnodup
    have hkept : ∀ id, id ∈ (kept b ps).map Prod.fst → id ∈ ps.map Prod.fst := by
      intro id hid
      obtain ⟨q, hq, rfl⟩ := List.mem_map.mp hid
      exact List.mem_map_of_mem (mem_kept.mp hq).1
    simp only [List.map_cons, truncateLoop, hread p (by simp)]
    split
    · rename_i hb
      have htail : ∀ q ∈ ps, readEntries (d.remove p.1) q.1 = .ok q.2 := by
        intro q hq
        have hne : q.1 ≠ p.1 := fun he => hp (he ▸ List.mem_map_of_mem hq)
        have := hread q (List.mem_cons_of_mem p hq)
        simpa [readEntries, Dir.remove, hne] using this
      obtain ⟨d', hloop, hbytes, hck, hids⟩ := ih hnodup htail
      refine ⟨d', ?_, hbytes, hck, ?_⟩
      · rw [kept_cons, if_neg (by omega), hloop]
      · intro id
        rw [hids, kept_cons, if_neg (by omega)]
        simp only [Dir.remove, Finset.mem_erase, List.mem_cons]
        constructor
        · rintro ⟨⟨hne, hid⟩, himp⟩
          exact ⟨hid, fun h => himp (h.resolve_left hne)⟩
        · rintro ⟨hid, himp⟩
          refine ⟨⟨?_, hid⟩, fun h => himp (Or.inr h)⟩
          rintro rfl
          exact hp (hkept _ (himp (Or.inl rfl)))
    · rename_i hb
      obtain ⟨d', hloop, hbytes, hck, hids⟩ :=
        ih hnodup (fun q hq => hread q (List.mem_cons_of_mem p hq))
      refine ⟨d', ?_, hbytes, hck, ?_⟩
      · rw [hloop, kept_cons, if_pos (by omega)]
        rfl
      · intro id
        rw [hids, kept_cons, if_pos (by omega)]
        simp only [List.map_cons, List.mem_cons]
        constructor
        · rintro ⟨hid, himp⟩
          exact ⟨hid, Or.imp_right himp⟩
        · rintro ⟨hid, himp⟩
          refine ⟨hid, fun h => ?_⟩
          rcases himp (Or.inr h) with rfl | h'
          · exact absurd h hp
          · exact h'

theorem truncateBefore_spec (h : Stores w c) (b : ℕ) :
    ∃ w', w.truncateBefore b = (.ok (), w') ∧ Stores w' (c.truncated b) ∧ SameMarks w w' ∧
      w'.nextSequence = w.nextSequence ∧ w'.active = w.active := by
  obtain ⟨d', hloop, hbytes, hck, hids⟩ :=
    truncateLoop_spec b h.sealed_nodup (fun p hp => h.read_sealed hp)
  have hsub : (kept b c.sealed).Sublist c.sealed := List.filter_sublist
  have hmem : ∀ id, id ∈ (kept b c.sealed).map Prod.fst → id ∈ c.sealed.map Prod.fst :=
    fun id hid => (hsub.map Prod.fst).subset hid
  have hsuffix := truncated_suffix b h.numbered.ascending
  rw [Wal.truncateBefore, h.sealed_ids, hloop]
  refine ⟨_, rfl, ⟨?_, fun e he => h.fits e (hsuffix.subset he)⟩, ⟨rfl, rfl, hck⟩, rfl, rfl⟩
  constructor
  · rfl
  · exact h.ascending.sublist ((hsub.map Prod.fst).append (List.Sublist.refl _))
  · ext id
    have hfiles := h.files ▸ (List.mem_toFinset (a := id) (l := c.ids w.active.id))
    have hactive : w.active.id ∉ c.sealed.map Prod.fst := by
      intro hm
      obtain ⟨p, hp, hid⟩ := List.mem_map.mp hm
      exact absurd hid (Nat.ne_of_lt (h.sealed_lt hp))
    simp only [hids, hfiles, Contents.ids, Contents.truncated, List.mem_toFinset,
      List.mem_append, List.mem_singleton]
    constructor
    · rintro ⟨hid | hid, himp⟩
      · exact Or.inl (himp hid)
      · exact Or.inr hid
    · rintro (hid | rfl)
      · exact ⟨Or.inl (hmem id hid), fun _ => hid⟩
      · exact ⟨Or.inr rfl, fun hm => absurd hm hactive⟩
  · intro p hp
    rw [hbytes]
    exact h.sealed_bytes p (mem_kept.mp hp).1
  · rw [hbytes]
    exact h.active_bytes
  · exact h.size
  · exact h.flushed
  · exact h.cap
  · exact h.numbered.suffix hsuffix

/-- The next sequence that an opening computes from the highest one. -/
theorem nextSequence_eq (h : Stores w c) :
    (match c.entries.getLast?.map Entry.sequence with
      | some s => s + 1
      | none => 1) = if c.entries = [] then 1 else w.nextSequence := by
  cases he : c.entries.getLast? with
  | none => simp [List.getLast?_eq_none_iff.mp he]
  | some e =>
    have hne : c.entries ≠ [] := by
      rintro hnil
      simp [hnil] at he
    simpa [hne] using h.numbered.last he

/-- Reopening finds the same contents. The next sequence comes from the last entry on
disk, and starts again at 1 when no segment holds an entry. -/
theorem open_spec (h : Stores w c) :
    ∃ w', Wal.open w.config w.dir = .ok w' ∧ Stores w' c ∧ w'.config = w.config ∧
      w'.dir = w.dir ∧ w'.active.id = w.active.id ∧
      w'.checkpointSequence = openCheckpoint w.dir ∧
      w'.nextSequence = if c.entries = [] then 1 else w.nextSequence := by
  have hlist : listSegments w.dir = c.ids w.active.id := listSegments_eq h.ascending h.files
  have hmem : w.active.id ∈ w.dir.ids := h.mem_files.mpr (Or.inr rfl)
  have hlast : (c.ids w.active.id).getLast? = some w.active.id := by simp [Contents.ids]
  have hinit : (c.ids w.active.id).dropLast = w.sealed := by
    simp [Contents.ids, h.sealed_ids]
  have hnext := nextSequence_eq h
  have hlen : (w.dir.bytes w.active.id).length = (encodeAll c.active).length := by
    rw [h.active_bytes]
  rw [Wal.open, hlist, hlast]
  simp only [hinit, Segment.openForAppend, if_pos hmem, highest_eq h]
  refine ⟨_, rfl, ⟨?_, h.fits⟩, rfl, rfl, rfl, rfl, hnext⟩
  constructor
  · exact h.sealed_ids
  · exact h.ascending
  · exact h.files
  · exact h.sealed_bytes
  · exact h.active_bytes
  · exact hlen
  · rfl
  · rfl
  · have hn : Numbered (if c.entries = [] then 1 else w.nextSequence) c.entries := by
      split
      · rename_i hnil
        rw [hnil]
        exact .nil Nat.one_pos
      · exact h.numbered
    exact cast (congrArg (Numbered · c.entries) hnext.symm) hn

theorem open_empty (config : WalConfig) :
    ∃ w, Wal.open config Dir.empty = .ok w ∧ Stores w ⟨[], []⟩ ∧ w.config = config ∧
      w.nextSequence = 1 ∧ w.checkpointSequence = 0 ∧ w.dir.checkpoint = none := by
  have hlist : listSegments Dir.empty = [] := by simp [listSegments, Dir.empty]
  have hnew : 1 ∉ Dir.empty.ids := by simp [Dir.empty]
  rw [Wal.open, hlist]
  simp only [List.getLast?_nil, Segment.create, if_neg hnew]
  refine ⟨_, rfl, ⟨?_, by simp [Contents.entries]⟩, rfl, rfl, rfl, rfl⟩
  constructor
  · rfl
  · simp [Contents.ids]
  · simp [Contents.ids, Dir.empty]
  · simp
  · simp
  · rfl
  · rfl
  · rfl
  · exact .nil Nat.one_pos

end WalContents
