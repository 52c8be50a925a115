import DistributedWal.WalContents

/-! # What `open` accepts

The checksum of an entry covers its payload, so any sequence in a header passes, and
`open` continues from the last header it finds. The numbering of an accepted directory
is consistent exactly when the headers on disk are: `open` adds no check of its own.
-/
namespace WalOpenNumbering

open LittleEndianCodec WalEntry WalSegment WalEngine WalContents

/-- The comparisons between neighbours give those between all. -/
theorem filtered_ascending (all : List Entry) :
    ((all.filter (fun e => 1 ≤ e.sequence)).map Entry.sequence).Pairwise (· < ·) ↔
      ((all.map Entry.sequence).filter (fun s => 1 ≤ s)).IsChain (· < ·) := by
  rw [List.isChain_iff_pairwise, List.filter_map]
  rfl

/-- With ascending headers the last one is the greatest. -/
theorem below_last {all : List Entry} {last e : Entry} (hlast : all.getLast? = some last)
    (hasc : ((all.map Entry.sequence).filter (fun s => 1 ≤ s)).IsChain (· < ·))
    (hpos : 1 ≤ last.sequence) (he : e ∈ all) : e.sequence ≤ last.sequence := by
  obtain ⟨front, rfl⟩ := List.getLast?_eq_some_iff.mp hlast
  rcases List.mem_append.mp he with he | he
  · by_cases hzero : e.sequence = 0
    · omega
    · rw [List.isChain_iff_pairwise, List.map_append, List.filter_append] at hasc
      apply Nat.le_of_lt
      apply (List.pairwise_append.mp hasc).2.2
      · refine List.mem_filter.mpr ⟨List.mem_map_of_mem he, ?_⟩
        exact decide_eq_true (Nat.one_le_iff_ne_zero.mpr hzero)
      · simp [hpos]
  · rw [List.mem_singleton.mp he]

variable [Crc32]

/-- The numbering that appends rely on, of a WAL whose counter is a `u64`. -/
def Consistent (w : Wal) : Prop :=
  ∀ es, w.readFrom 1 = .ok es →
    (es.map Entry.sequence).Pairwise (· < ·) ∧ (∀ e ∈ es, 1 ≤ e.sequence) ∧
      (∀ e ∈ es, e.sequence < w.nextSequence) ∧ w.nextSequence < 2 ^ 64

/-- Among the headers in the files, in the order of the ids: each sequence but 0 exceeds the
one before it, and the last header has not wrapped nor is 0 after another sequence. A file
that does not parse leaves nothing to compare. -/
def HeadersAscend (d : Dir) : Prop :=
  ∀ all, readSealed d (listSegments d) = .ok all →
    ((all.map Entry.sequence).filter (fun s => 1 ≤ s)).IsChain (· < ·) ∧
      ∀ last, all.getLast? = some last →
        (last.sequence = 0 → ∀ e ∈ all, e.sequence = 0) ∧ last.sequence + 1 < 2 ^ 64

theorem readSealed_append (d : Dir) (ids ids' : List ℕ) :
    readSealed d (ids ++ ids') =
      match readSealed d ids with
      | .error e => .error e
      | .ok front => (readSealed d ids').map (front ++ ·) := by
  induction ids with
  | nil =>
    simp only [List.nil_append, readSealed]
    cases readSealed d ids' <;> rfl
  | cons id ids ih =>
    rw [List.cons_append, readSealed, readSealed, ih]
    cases readEntries d id with
    | error e => rfl
    | ok entries =>
      cases readSealed d ids with
      | error e => rfl
      | ok front => cases readSealed d ids' <;> simp [Except.map]

/-- Files that read back, one by one. -/
theorem readSealed_pairs {d : Dir} {ids : List ℕ} {es : List Entry}
    (h : readSealed d ids = .ok es) :
    ∃ ps : List (ℕ × List Entry), ids = ps.map Prod.fst ∧
      (∀ p ∈ ps, readEntries d p.1 = .ok p.2) ∧ es = (ps.map Prod.snd).flatten := by
  induction ids generalizing es with
  | nil =>
    cases h
    exact ⟨[], rfl, by simp, rfl⟩
  | cons id ids ih =>
    rw [readSealed] at h
    split at h
    · cases h
    · rename_i entries hid
      cases hrest : readSealed d ids with
      | error e =>
        rw [hrest] at h
        cases h
      | ok rest =>
        rw [hrest] at h
        cases h
        obtain ⟨ps, rfl, hps, rfl⟩ := ih hrest
        refine ⟨(id, entries) :: ps, rfl, ?_, rfl⟩
        intro p hp
        rcases List.mem_cons.mp hp with rfl | hp
        · exact hid
        · exact hps p hp

/-- The search of `open` stops at the last header of the directory. -/
theorem highest_of_read {d : Dir} {ids : List ℕ} {activeId : ℕ} {all : List Entry}
    (h : readSealed d (ids ++ [activeId]) = .ok all) :
    highestSequenceOnDisk activeId ids d = .ok (all.getLast?.map Entry.sequence) := by
  rw [readSealed_append] at h
  split at h
  · cases h
  · rename_i front hfront
    obtain ⟨ps, rfl, hps, rfl⟩ := readSealed_pairs hfront
    rw [readSealed] at h
    split at h
    · cases h
    · rename_i entries hactive
      cases h
      rw [highestSequenceOnDisk, hactive]
      dsimp only
      cases hlast : entries.getLast? with
      | some e => simp [hlast]
      | none =>
        have hnil : entries = [] := List.getLast?_eq_none_iff.mp hlast
        rw [← List.map_reverse,
          lastSealedSequence_eq (fun p hp => hps p (List.mem_reverse.mp hp)), hnil]
        simp

/-- An accepted directory: a new WAL, or the files it holds and the counter after the last
header. -/
theorem open_cases {config : WalConfig} {d : Dir} {w : Wal} (h : Wal.open config d = .ok w) :
    listSegments d = [] ∧ w.readFrom 1 = .ok [] ∧ w.nextSequence = 1 ∨
      w.readFrom 1 =
          (readSealed d (listSegments d)).map (·.filter (fun e => 1 ≤ e.sequence)) ∧
        ∀ all, readSealed d (listSegments d) = .ok all →
          w.nextSequence = ((all.getLast?.map (fun e => e.sequence + 1))).getD 1 := by
  rw [Wal.open] at h
  split at h
  · rename_i hnone
    left
    have hnil : listSegments d = [] := List.getLast?_eq_none_iff.mp hnone
    rw [Segment.create] at h
    split at h
    · cases h
    · rename_i hcreate
      split at hcreate
      · cases hcreate
      · cases hcreate
        cases h
        refine ⟨hnil, ?_, rfl⟩
        simp [Wal.readFrom, readSealed, readEntries, readRaw]
  · rename_i activeId hlast
    right
    have hsplit : listSegments d = (listSegments d).dropLast ++ [activeId] := by
      obtain ⟨front, hfront⟩ := List.getLast?_eq_some_iff.mp hlast
      rw [hfront, List.dropLast_concat]
    split at h
    · cases h
    · rename_i seg hseg
      dsimp only at h
      split at h
      · cases h
      · rename_i highest hhigh
        have hid : seg.id = activeId := by
          rw [Segment.openForAppend] at hseg
          split at hseg <;> cases hseg
          rfl
        cases h
        constructor
        · conv_rhs => rw [hsplit]
          simp only [Wal.readFrom, readSealed_append, hid, readSealed]
          cases readSealed d (listSegments d).dropLast with
          | error e => rfl
          | ok front =>
            cases readEntries d activeId with
            | error e => rfl
            | ok entries => simp [Except.map]
        · intro all hall
          rw [hsplit] at hall
          rw [highest_of_read hall] at hhigh
          cases hhigh
          cases all.getLast? <;> rfl

/-- What `open` accepts is numbered consistently exactly when the headers in its files
ascend. -/
theorem opened_numbering_consistent {config : WalConfig} {d : Dir} {w : Wal}
    (h : Wal.open config d = .ok w) : Consistent w ↔ HeadersAscend d := by
  rcases open_cases h with ⟨hnil, hread, hnext⟩ | ⟨hread, hnext⟩
  · constructor
    · intro _ all hall
      rw [hnil] at hall
      cases hall
      simp
    · intro _ es hes
      rw [hread] at hes
      cases hes
      simp [hnext]
  · cases hall : readSealed d (listSegments d) with
    | error e =>
      rw [hall] at hread
      constructor
      · intro _ all hall'
        rw [hall] at hall'
        cases hall'
      · intro _ es hes
        rw [hread] at hes
        cases hes
    | ok all =>
      have hnext := hnext all hall
      rw [hall] at hread
      constructor
      · intro hcons all' hall'
        rw [hall] at hall'
        cases hall'
        obtain ⟨hasc, _, hbelow, hroom⟩ := hcons _ hread
        refine ⟨(filtered_ascending all).mp hasc, ?_⟩
        intro last hlast
        rw [hlast] at hnext
        have hnext : w.nextSequence = last.sequence + 1 := hnext
        refine ⟨?_, hnext ▸ hroom⟩
        intro hzero e he
        by_contra hne
        have := hbelow e (List.mem_filter.mpr
          ⟨he, decide_eq_true (Nat.one_le_iff_ne_zero.mpr hne)⟩)
        omega
      · intro hheads es hes
        rw [hread] at hes
        cases hes
        obtain ⟨hasc, hlast⟩ := hheads all hall
        refine ⟨(filtered_ascending all).mpr hasc, ?_, ?_, ?_⟩
        · intro e he
          exact of_decide_eq_true (List.mem_filter.mp he).2
        · intro e he
          obtain ⟨hmem, hpos⟩ := List.mem_filter.mp he
          have hpos : 1 ≤ e.sequence := of_decide_eq_true hpos
          cases hl : all.getLast? with
          | none =>
            rw [List.getLast?_eq_none_iff.mp hl] at hmem
            cases hmem
          | some last =>
            rw [hl] at hnext
            have hnext : w.nextSequence = last.sequence + 1 := hnext
            have hne : last.sequence ≠ 0 := by
              intro hzero
              have := (hlast last hl).1 hzero e hmem
              omega
            have := below_last hl hasc (Nat.one_le_iff_ne_zero.mpr hne) hmem
            omega
        · cases hl : all.getLast? with
          | none =>
            rw [hl] at hnext
            rw [hnext]
            decide
          | some last =>
            rw [hl] at hnext
            rw [hnext]
            exact (hlast last hl).2

/-- A directory with one segment file. -/
def oneSegment (bytes : Bytes) : Dir := ⟨{1}, fun _ => bytes, none⟩

/-- One segment file that parses opens. -/
theorem oneSegment_opens (config : WalConfig) {es : List Entry} (hes : ∀ e ∈ es, e.Fits) :
    readSealed (oneSegment (encodeAll es)) (listSegments (oneSegment (encodeAll es))) = .ok es ∧
      ∃ w, Wal.open config (oneSegment (encodeAll es)) = .ok w := by
  have hlist : listSegments (oneSegment (encodeAll es)) = [1] :=
    listSegments_eq (List.pairwise_singleton _ _) rfl
  have hread : readSealed (oneSegment (encodeAll es)) [1] = .ok es := by
    rw [readSealed, readEntries_encodeAll (by simp [oneSegment]) rfl hes]
    simp [readSealed, Except.map]
  refine ⟨by rw [hlist]; exact hread, ?_⟩
  have hhigh : highestSequenceOnDisk 1 [] (oneSegment (encodeAll es)) = _ :=
    highest_of_read hread
  simp only [Wal.open, hlist, List.getLast?_singleton, Segment.openForAppend]
  rw [if_pos (by simp [oneSegment])]
  simp only [List.dropLast_singleton, hhigh]
  exact ⟨_, rfl⟩

omit [Crc32] in
theorem opened_numbering_consistent_two_entries :
    ∃ w, @Wal.open ieee ⟨64, true⟩ (oneSegment (@encodeAll ieee [⟨3, [7]⟩, ⟨4, []⟩])) = .ok w ∧
      @Consistent ieee w := by
  let _ : Crc32 := ieee
  have hfits : ∀ e ∈ ([⟨3, [7]⟩, ⟨4, []⟩] : List Entry), e.Fits := by simp [Entry.Fits]
  obtain ⟨hread, w, hopen⟩ := oneSegment_opens ⟨64, true⟩ hfits
  refine ⟨w, hopen, (opened_numbering_consistent hopen).mpr ?_⟩
  intro all hall
  rw [hread] at hall
  cases hall
  simp

omit [Crc32] in
/-- Sixteen zero bytes after an entry, as a crash can leave them, read as an entry with
sequence 0: the next append repeats the sequence of the entry before. -/
theorem zero_tail_reuses_sequence :
    ∃ w, @Wal.open ieee ⟨64, true⟩
        (oneSegment (@encode ieee 1 [7] ++ List.replicate 16 0)) = .ok w ∧
      @Wal.readFrom ieee w 1 = .ok [⟨1, [7]⟩] ∧ w.nextSequence = 1 := by
  let _ : Crc32 := ieee
  have hbytes : encode 1 [7] ++ List.replicate 16 0 = encodeAll [⟨1, [7]⟩, ⟨0, []⟩] := by
    decide
  have hfits : ∀ e ∈ ([⟨1, [7]⟩, ⟨0, []⟩] : List Entry), e.Fits := by simp [Entry.Fits]
  obtain ⟨hread, w, hopen⟩ := oneSegment_opens ⟨64, true⟩ hfits
  refine ⟨w, by rw [hbytes]; exact hopen, ?_⟩
  rcases open_cases hopen with ⟨hnil, _⟩ | ⟨hfrom, hnext⟩
  · rw [hnil] at hread
    cases hread
  · rw [hread] at hfrom
    exact ⟨hfrom, hnext _ hread⟩

end WalOpenNumbering
