import DistributedWal.WalFaults
import DistributedWal.WalLifetime

/-! # A truncation that fails in the middle

`truncate_before` deletes files one by one and replaces the list of sealed segments at
the end. A failure after a deletion leaves the list with an id that has no file.
-/
namespace WalFailedTruncation

open LittleEndianCodec WalEntry WalSegment WalEngine WalContents WalLifetime WalFaults
open LabelledRuns

variable [Crc32]

/-- The segment lies wholly below the bound. -/
def Below (b : ℕ) (d : Dir) (sid : ℕ) : Prop :=
  ∃ entries, readEntries d sid = .ok entries ∧ maxSequence entries < b

/-- Reading the segment fails, or deleting it does. -/
def Fails (f : SegmentFaults) (b : ℕ) (d : Dir) (sid : ℕ) : Prop :=
  f.read = true ∨ (∃ err, readEntries d sid = .error err) ∨
    Below b d sid ∧ f.remove = true

/-- No segment that is below the bound comes before the first failure. -/
def FailsFirst (f : ℕ → SegmentFaults) (b : ℕ) (d : Dir) (ids : List ℕ) : Prop :=
  ∀ k sid, ids[k]? = some sid → Below b d sid → ¬ Fails (f k) b d sid →
    ∃ j sid', j < k ∧ ids[j]? = some sid' ∧ Fails (f j) b d sid'

/-- Every id that is left has its file, and what could be read before is read again, as far
as it was not deleted. -/
structure Usable (w w' : Wal) : Prop where
  files : ∀ id ∈ w'.sealed, id ∈ w'.dir.ids
  reads : ∀ k es, w.readFrom k = .ok es →
    ∃ es', w'.readFrom k = .ok es' ∧
      Wal.readFrom { w with sealed := w.sealed.filter (fun id => id ∈ w'.dir.ids) } k = .ok es'

section

variable {f : ℕ → SegmentFaults} {b sid : ℕ} {d : Dir} {ids : List ℕ}

/-- A failure at the first segment comes before everything else. -/
theorem FailsFirst.of_head (h : Fails (f 0) b d sid) : FailsFirst f b d (sid :: ids) := by
  intro k sid' hk _ hok
  cases k with
  | zero =>
    obtain rfl := Option.some.inj hk
    exact absurd h hok
  | succ k => exact ⟨0, sid, Nat.succ_pos k, rfl, h⟩

/-- A segment that stays neither fails nor is deleted. -/
theorem failsFirst_kept (hok : ¬ Fails (f 0) b d sid) (hkeep : ¬ Below b d sid) :
    FailsFirst f b d (sid :: ids) ↔ FailsFirst (fun k => f (k + 1)) b d ids := by
  constructor
  · intro h k sid' hk hbelow hfine
    obtain ⟨j, sid'', hj, hget, hfail⟩ := h (k + 1) sid' hk hbelow hfine
    cases j with
    | zero =>
      obtain rfl := Option.some.inj hget
      exact absurd hfail hok
    | succ j => exact ⟨j, sid'', Nat.lt_of_succ_lt_succ hj, hget, hfail⟩
  · intro h k sid' hk hbelow hfine
    cases k with
    | zero =>
      obtain rfl := Option.some.inj hk
      exact absurd hbelow hkeep
    | succ k =>
      obtain ⟨j, sid'', hj, hget, hfail⟩ := h k sid' hk hbelow hfine
      exact ⟨j + 1, sid'', Nat.succ_lt_succ hj, hget, hfail⟩

/-- What one segment does to the loop: it ends it, is deleted, or stays. -/
theorem truncateLoopUnder_cons (f : ℕ → SegmentFaults) (b : ℕ) (d : Dir) (sid : ℕ)
    (ids : List ℕ) :
    Fails (f 0) b d sid ∧ (truncateLoopUnder b f (sid :: ids) d).2 = d ∨
      Below b d sid ∧ ¬ Fails (f 0) b d sid ∧
        truncateLoopUnder b f (sid :: ids) d =
          truncateLoopUnder b (fun k => f (k + 1)) ids (d.remove sid) ∨
      ¬ Below b d sid ∧ ¬ Fails (f 0) b d sid ∧
        (truncateLoopUnder b f (sid :: ids) d).2 =
          (truncateLoopUnder b (fun k => f (k + 1)) ids d).2 := by
  rw [truncateLoopUnder]
  by_cases hread : (f 0).read = true
  · rw [if_pos hread]
    exact Or.inl ⟨Or.inl hread, rfl⟩
  rw [if_neg hread]
  cases hentries : readEntries d sid with
  | error err => exact Or.inl ⟨Or.inr (Or.inl ⟨err, hentries⟩), rfl⟩
  | ok entries =>
    have hbelow : Below b d sid ↔ maxSequence entries < b := by
      constructor
      · rintro ⟨entries', h, hmax⟩
        rw [hentries] at h
        cases h
        exact hmax
      · intro hmax
        exact ⟨entries, hentries, hmax⟩
    have hfails : Fails (f 0) b d sid ↔ maxSequence entries < b ∧ (f 0).remove = true := by
      rw [Fails, hbelow, hentries]
      simp [hread]
    rw [hbelow, hfails]
    dsimp only
    by_cases hmax : maxSequence entries < b
    · rw [if_pos hmax]
      by_cases hremove : (f 0).remove = true
      · rw [if_pos hremove]
        exact Or.inl ⟨⟨hmax, hremove⟩, rfl⟩
      · rw [if_neg hremove]
        exact Or.inr (Or.inl ⟨hmax, fun h => hremove h.2, rfl⟩)
    · rw [if_neg hmax]
      refine Or.inr (Or.inr ⟨hmax, fun h => hmax h.1, ?_⟩)
      cases truncateLoopUnder b (fun k => f (k + 1)) ids d with
      | mk result d' => cases result <;> rfl

/-- Deletions are all that the loop does to the directory. -/
theorem truncateLoopUnder_shrinks :
    (truncateLoopUnder b f ids d).2.ids ⊆ d.ids := by
  induction ids generalizing f d with
  | nil => exact Finset.Subset.refl _
  | cons sid ids ih =>
    rcases truncateLoopUnder_cons f b d sid ids with ⟨_, hd⟩ | ⟨_, _, hloop⟩ | ⟨_, _, hd⟩
    · rw [hd]
    · rw [hloop]
      exact ih.trans (Finset.erase_subset sid d.ids)
    · rw [hd]
      exact ih

/-- The loop leaves the directory alone when a failure comes first. -/
theorem truncateLoopUnder_fails_first (h : FailsFirst f b d ids) :
    (truncateLoopUnder b f ids d).2 = d := by
  induction ids generalizing f with
  | nil => rfl
  | cons sid ids ih =>
    rcases truncateLoopUnder_cons f b d sid ids with ⟨_, hd⟩ | ⟨hbelow, hok, _⟩ | ⟨hkeep, hok, hd⟩
    · exact hd
    · obtain ⟨j, _, hj, _⟩ := h 0 sid rfl hbelow hok
      exact absurd hj (Nat.not_lt_zero j)
    · rw [hd]
      exact ih ((failsFirst_kept hok hkeep).mp h)

/-- Otherwise a listed segment loses its file. -/
theorem truncateLoopUnder_deletes (h : ¬ FailsFirst f b d ids) :
    ∃ sid ∈ ids, sid ∉ (truncateLoopUnder b f ids d).2.ids := by
  induction ids generalizing f with
  | nil =>
    exfalso
    apply h
    intro k sid hk
    cases hk
  | cons sid ids ih =>
    rcases truncateLoopUnder_cons f b d sid ids with ⟨hfail, _⟩ | ⟨_, _, hloop⟩ | ⟨hkeep, hok, hd⟩
    · exact absurd (FailsFirst.of_head hfail) h
    · refine ⟨sid, by simp, ?_⟩
      rw [hloop]
      intro hmem
      exact Finset.notMem_erase sid d.ids (truncateLoopUnder_shrinks hmem)
    · rw [failsFirst_kept hok hkeep] at h
      obtain ⟨sid', hmem, hgone⟩ := ih h
      exact ⟨sid', List.mem_cons_of_mem sid hmem, by rw [hd]; exact hgone⟩

end

/-- A truncation that returns an error changes nothing but the directory. -/
theorem truncateBeforeUnder_error {w w' : Wal} {f : ℕ → SegmentFaults} {b : ℕ} {err : WalError}
    (h : Wal.truncateBeforeUnder w f b = (.error err, w')) :
    w' = { w with dir := (truncateLoopUnder b f w.sealed w.dir).2 } := by
  rw [Wal.truncateBeforeUnder] at h
  split at h
  · rename_i dir hloop
    cases h
    rw [hloop]
  · cases h

/-- A failed truncation leaves the WAL usable exactly when every sealed segment had its
file and none below the bound comes before the segment at which the call fails. -/
theorem failed_truncation_usable {w w' : Wal} {f : ℕ → SegmentFaults} {b : ℕ} {err : WalError}
    (h : Wal.truncateBeforeUnder w f b = (.error err, w')) :
    Usable w w' ↔ (∀ id ∈ w.sealed, id ∈ w.dir.ids) ∧ FailsFirst f b w.dir w.sealed := by
  have hw := truncateBeforeUnder_error h
  constructor
  · intro husable
    have hfiles : ∀ id ∈ w.sealed, id ∈ (truncateLoopUnder b f w.sealed w.dir).2.ids := by
      have := husable.files
      rw [hw] at this
      exact this
    refine ⟨fun id hid => truncateLoopUnder_shrinks (hfiles id hid), ?_⟩
    by_contra hfirst
    obtain ⟨sid, hmem, hgone⟩ := truncateLoopUnder_deletes hfirst
    exact hgone (hfiles sid hmem)
  · rintro ⟨hfiles, hfirst⟩
    rw [truncateLoopUnder_fails_first hfirst] at hw
    have hsame : w' = w := hw
    have hall : w.sealed.filter (fun id => id ∈ w.dir.ids) = w.sealed :=
      List.filter_eq_self.mpr (fun id hid => decide_eq_true (hfiles id hid))
    rw [hsame]
    refine ⟨hfiles, ?_⟩
    intro k es hread
    exact ⟨es, hread, by rw [hall]; exact hread⟩

/-- Segments of 20 bytes hold one entry of one byte each. -/
theorem three_segments : ∃ w first second,
    Run ⟨20, true⟩ [.appended 1 [7], .appended 2 [7], .appended 3 [7]] w ∧
      Stores w ⟨[(first, [⟨1, [7]⟩]), (second, [⟨2, [7]⟩])], [⟨3, [7]⟩]⟩ ∧ first ≠ second := by
  obtain ⟨w, run, hst, hcfg, hn, _⟩ := run_start ⟨20, true⟩
  have hsize : headerSize + ([7] : Bytes).length ≤ 20 := by decide
  obtain ⟨w₁, happ₁, hst₁, hm₁, hn₁⟩ := append_accepted hst [7] (by decide)
    (by rw [hn]; decide) (by rw [hcfg]; exact hsize)
  have hcfg₁ := hm₁.config.trans hcfg
  have hroom : w.active.wouldOverflow (headerSize + ([7] : Bytes).length) = false := by
    rw [hst.wouldOverflow, hcfg]
    rfl
  rw [Contents.grown, hroom, hn] at hst₁
  have hst₁ : Stores w₁ ⟨[], [⟨1, [7]⟩]⟩ := hst₁
  rw [hn] at happ₁ hn₁
  obtain ⟨w₂, happ₂, hst₂, hm₂, hn₂⟩ := append_accepted hst₁ [7] (by decide)
    (by rw [hn₁]; decide) (by rw [hcfg₁]; exact hsize)
  have hcfg₂ := hm₂.config.trans hcfg₁
  have hfull₁ : w₁.active.wouldOverflow (headerSize + ([7] : Bytes).length) = true := by
    rw [hst₁.wouldOverflow, hcfg₁]
    simp [Entry.encoded, headerSize]
  rw [Contents.grown, if_pos hfull₁, hn₁] at hst₂
  have hst₂ : Stores w₂ ⟨[(w₁.active.id, [⟨1, [7]⟩])], [⟨2, [7]⟩]⟩ := hst₂
  rw [hn₁] at happ₂ hn₂
  obtain ⟨w₃, happ₃, hst₃, hm₃, hn₃⟩ := append_accepted hst₂ [7] (by decide)
    (by rw [hn₂]; decide) (by rw [hcfg₂]; exact hsize)
  have hfull₂ : w₂.active.wouldOverflow (headerSize + ([7] : Bytes).length) = true := by
    rw [hst₂.wouldOverflow, hcfg₂]
    simp [Entry.encoded, headerSize]
  rw [Contents.grown, if_pos hfull₂, hn₂] at hst₃
  have hst₃ : Stores w₃ ⟨[(w₁.active.id, [⟨1, [7]⟩]), (w₂.active.id, [⟨2, [7]⟩])],
      [⟨3, [7]⟩]⟩ := hst₃
  rw [hn₂] at happ₃
  have run₁ := run.snoc (.append (by rw [hn]; decide) happ₁)
  have run₂ := run₁.snoc (.append (by rw [hn₁]; decide) happ₂)
  have run₃ := run₂.snoc (.append (by rw [hn₂]; decide) happ₃)
  exact ⟨w₃, _, _, run₃, hst₃,
    Nat.ne_of_lt (hst₂.sealed_lt (List.mem_singleton_self _))⟩

omit [Crc32] in
/-- The deletion of the first segment fails: both are still there. -/
theorem failed_truncation_usable_first_deletion :
    ∃ w w' err, @Run ieee ⟨20, true⟩ [.appended 1 [7], .appended 2 [7], .appended 3 [7]] w ∧
      @Wal.truncateBeforeUnder ieee w (fun _ => ⟨false, true⟩) 3 = (.error err, w') ∧
      @Usable ieee w w' := by
  let _ : Crc32 := ieee
  obtain ⟨w, first, second, run, hst, _⟩ := three_segments
  have hread : readEntries w.dir first = .ok [⟨1, [7]⟩] :=
    hst.read_sealed (p := (first, _)) (by simp)
  have hloop : truncateLoopUnder 3 (fun _ => ⟨false, true⟩) w.sealed w.dir =
      (.error (.io .other), w.dir) := by
    simp only [hst.sealed_ids, List.map_cons, truncateLoopUnder, hread]
    rfl
  have htr : Wal.truncateBeforeUnder w (fun _ => ⟨false, true⟩) 3 =
      (.error (.io .other), w) := by
    rw [Wal.truncateBeforeUnder, hloop]
  refine ⟨w, w, _, run, htr, (failed_truncation_usable htr).mpr ⟨?_, ?_⟩⟩
  · intro id hid
    rw [hst.sealed_ids] at hid
    obtain ⟨p, hp, rfl⟩ := List.mem_map.mp hid
    exact hst.mem_files.mpr (Or.inl ⟨p, hp, rfl⟩)
  · rw [hst.sealed_ids]
    exact FailsFirst.of_head (Or.inr (Or.inr ⟨⟨_, hread, by decide⟩, rfl⟩))

omit [Crc32] in
/-- The first segment is deleted and the deletion of the second fails: nothing can be read
any more. -/
theorem failed_truncation_unreadable :
    ∃ w w' err, @Run ieee ⟨20, true⟩ [.appended 1 [7], .appended 2 [7], .appended 3 [7]] w ∧
      @Wal.truncateBeforeUnder ieee w (fun k => ⟨false, k = 1⟩) 3 = (.error err, w') ∧
      @Wal.readFrom ieee w 1 = .ok [⟨1, [7]⟩, ⟨2, [7]⟩, ⟨3, [7]⟩] ∧
      @Wal.readFrom ieee w' 1 = .error (.io .notFound) ∧ ¬ @Usable ieee w w' := by
  let _ : Crc32 := ieee
  obtain ⟨w, first, second, run, hst, hne⟩ := three_segments
  have hread : readEntries w.dir first = .ok [⟨1, [7]⟩] :=
    hst.read_sealed (p := (first, _)) (by simp)
  have hread₂ : readEntries (w.dir.remove first) second = .ok [⟨2, [7]⟩] := by
    have h : readEntries w.dir second = .ok [⟨2, [7]⟩] :=
      hst.read_sealed (p := (second, _)) (by simp)
    simpa [readEntries, Dir.remove, hne.symm] using h
  have hloop : truncateLoopUnder 3 (fun k => ⟨false, k = 1⟩) w.sealed w.dir =
      (.error (.io .other), w.dir.remove first) := by
    simp only [hst.sealed_ids, List.map_cons, truncateLoopUnder, hread, hread₂]
    rfl
  have htr : Wal.truncateBeforeUnder w (fun k => ⟨false, k = 1⟩) 3 =
      (.error (.io .other), { w with dir := w.dir.remove first }) := by
    rw [Wal.truncateBeforeUnder, hloop]
  have hgone : first ∉ (w.dir.remove first).ids := Finset.notMem_erase _ _
  refine ⟨w, _, _, run, htr, hst.readFrom_one, ?_, ?_⟩
  · simp only [Wal.readFrom, hst.sealed_ids, List.map_cons, readSealed, readEntries,
      if_neg hgone]
  · intro husable
    exact hgone (husable.files first (by simp [hst.sealed_ids]))

end WalFailedTruncation
