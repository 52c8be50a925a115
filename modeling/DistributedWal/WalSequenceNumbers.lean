import DistributedWal.WalLifetime

/-! # Sequence numbers over the lifetime of a directory

The next sequence is not stored: opening takes it from the last entry still on disk. It
is fresh as long as some segment holds an entry whenever the directory is reopened.
-/
namespace WalSequenceNumbers

open LittleEndianCodec WalEntry WalSegment WalEngine WalContents WalLifetime LabelledRuns

/-- A client checkpoints sequences it was given and truncates up to the checkpoint. -/
def Permitted (es : List WalEvent) (w : Wal) : WalEvent → Prop
  | .checkpointed sequence => ∃ data, .appended sequence data ∈ es
  | .truncated before => before ≤ w.checkpointSequence + 1
  | _ => True

/-- Appended, and no checkpoint since. -/
def SinceCheckpoint (es : List WalEvent) (sequence : ℕ) (data : Bytes) : Prop :=
  AppendedThen (fun e => ∀ s, e ≠ .checkpointed s) es sequence data

structure Invariant (es : List WalEvent) (w : Wal) (c : Contents) : Prop where
  stored : openCheckpoint w.dir = w.checkpointSequence
  acknowledged : ∀ e ∈ acknowledged es, e.sequence < w.nextSequence
  checkpoint : w.checkpointSequence < w.nextSequence
  since : ∀ sequence data, SinceCheckpoint es sequence data →
    w.checkpointSequence < sequence ∧ ⟨sequence, data⟩ ∈ c.entries

theorem SinceCheckpoint.snoc {es : List WalEvent} {e : WalEvent} {sequence : ℕ}
    {data : Bytes} (h : SinceCheckpoint (es ++ [e]) sequence data) :
    e = .appended sequence data ∨ SinceCheckpoint es sequence data ∧
      ∀ s, e ≠ .checkpointed s := AppendedThen.snoc h

theorem openCheckpoint_of_stored {w w' : Wal} (h : w'.dir.checkpoint = w.dir.checkpoint) :
    openCheckpoint w'.dir = openCheckpoint w.dir := by
  rw [openCheckpoint, h, openCheckpoint]

/-- An event other than an append or a checkpoint, one that moves neither the counter
nor the marks, keeps the invariant when it retains what is above the checkpoint. -/
theorem Invariant.quiet {es : List WalEvent} {w w' : Wal} {c c' : Contents} {e : WalEvent}
    (h : Invariant es w c) (hack : WalLifetime.acknowledged [e] = [])
    (happ : ∀ s d, e ≠ .appended s d)
    (hstored : w'.dir.checkpoint = w.dir.checkpoint)
    (hck : w'.checkpointSequence = w.checkpointSequence)
    (hnext : w'.nextSequence = w.nextSequence)
    (hkeep : ∀ f ∈ c.entries, w.checkpointSequence < f.sequence → f ∈ c'.entries) :
    Invariant (es ++ [e]) w' c' := by
  constructor
  · rw [openCheckpoint_of_stored hstored, hck, h.stored]
  · rw [acknowledged_append, hack, List.append_nil, hnext]
    exact h.acknowledged
  · rw [hck, hnext]
    exact h.checkpoint
  · intro sequence data hs
    rcases hs.snoc with he | ⟨hs, _⟩
    · exact absurd he (happ _ _)
    · obtain ⟨hlt, hmem⟩ := h.since sequence data hs
      exact ⟨hck ▸ hlt, hkeep _ hmem hlt⟩

theorem Invariant.appended {es : List WalEvent} {w w' : Wal} {c c' : Contents}
    (data : Bytes) (h : Invariant es w c) (hm : SameMarks w w')
    (hn : w'.nextSequence = w.nextSequence + 1)
    (hc : c'.entries = c.entries ++ [⟨w.nextSequence, data⟩]) :
    Invariant (es ++ [.appended w.nextSequence data]) w' c' := by
  constructor
  · rw [openCheckpoint_of_stored hm.stored, hm.checkpointSequence, h.stored]
  · intro e he
    rw [acknowledged_append, acknowledged_appended] at he
    rw [hn]
    rcases List.mem_append.mp he with he | he
    · exact (h.acknowledged e he).trans (Nat.lt_succ_self _)
    · obtain rfl := List.mem_singleton.mp he
      exact Nat.lt_succ_self _
  · rw [hm.checkpointSequence, hn]
    exact h.checkpoint.trans (Nat.lt_succ_self _)
  · intro sequence payload hs
    rw [hm.checkpointSequence, hc]
    rcases hs.snoc with he | ⟨hs, _⟩
    · cases he
      exact ⟨h.checkpoint, by simp⟩
    · obtain ⟨hlt, hmem⟩ := h.since sequence payload hs
      exact ⟨hlt, List.mem_append_left _ hmem⟩

theorem Invariant.checkpointed {es : List WalEvent} {w : Wal} {c : Contents}
    {sequence : ℕ} (h : Invariant es w c) (hseq : sequence < 2 ^ 64)
    (hperm : ∃ data, .appended sequence data ∈ es) :
    Invariant (es ++ [.checkpointed sequence]) (w.checkpoint sequence) c := by
  obtain ⟨data, hmem⟩ := hperm
  have hlt : sequence < w.nextSequence :=
    h.acknowledged ⟨sequence, data⟩ (mem_acknowledged.mpr hmem)
  have hsince : ∀ s d, ¬ SinceCheckpoint (es ++ [.checkpointed sequence]) s d := by
    intro s d hs
    rcases hs.snoc with he | ⟨_, hne⟩
    · cases he
    · exact hne sequence rfl
  have hack : WalLifetime.acknowledged (es ++ [.checkpointed sequence]) =
      WalLifetime.acknowledged es := by
    simp [WalLifetime.acknowledged]
  by_cases hgt : sequence > w.checkpointSequence
  · have hw : w.checkpoint sequence =
        { w with
          checkpointSequence := sequence
          dir := { w.dir with checkpoint := some (leBytes 8 sequence) } } := by
      simp [Wal.checkpoint, advanceCheckpoint, hgt]
    rw [hw]
    exact ⟨openCheckpoint_leBytes hseq rfl, hack ▸ h.acknowledged, hlt,
      fun s d hs => absurd hs (hsince s d)⟩
  · have hw : w.checkpoint sequence = w := by
      simp [Wal.checkpoint, advanceCheckpoint, hgt]
    rw [hw]
    exact ⟨h.stored, hack ▸ h.acknowledged, h.checkpoint,
      fun s d hs => absurd hs (hsince s d)⟩

section

variable [Crc32]

/-- The runs of such a client. Every step satisfies `ok` in the state it starts from. -/
inductive ClientRun (ok : Wal → WalEvent → Prop) (config : WalConfig) :
    List WalEvent → Wal → Prop where
  | start {w : Wal} : Wal.open config Dir.empty = .ok w → ClientRun ok config [] w
  | step {es : List WalEvent} {w w' : Wal} {e : WalEvent} : ClientRun ok config es w →
      Permitted es w e → ok w e → Step w e w' → ClientRun ok config (es ++ [e]) w'

/-- The next append gets a sequence above all acknowledged ones and above the stored
checkpoint, and a reopening recovers whatever was appended since the last checkpoint. -/
def NeverReused (config : WalConfig) (es : List WalEvent) (w : Wal) : Prop :=
  (∀ data sequence w', w.append data = (.ok sequence, w') →
    (∀ e ∈ acknowledged es, e.sequence < sequence) ∧ openCheckpoint w.dir < sequence) ∧
  ∃ w' held, Wal.open config w.dir = .ok w' ∧ w'.recover = .ok held ∧
    ∀ sequence data, SinceCheckpoint es sequence data → ⟨sequence, data⟩ ∈ held

/-- At a reopening some segment still holds an entry, or nothing was ever appended; the
payloads have lengths that the `u32` field holds. -/
def Anchored (w : Wal) : WalEvent → Prop
  | .reopened => w.nextSequence = 1 ∨ w.readFrom 1 ≠ .ok []
  | e => e.Short

theorem invariant_step {es : List WalEvent} {w w' : Wal} {c c' : Contents} {e : WalEvent}
    (hst : Stores w c) (h : Invariant es w c) (hperm : Permitted es w e)
    (hok : Anchored w e) (heff : Effect w c e w' c') : Invariant (es ++ [e]) w' c' := by
  cases heff with
  | appended data hm hn hc => exact h.appended data hm hn hc
  | rejected data hm hn hc =>
    exact h.quiet rfl (by simp) hm.stored hm.checkpointSequence hn
      (fun f hf _ => hc ▸ hf)
  | checkpointed sequence hseq => exact h.checkpointed hseq hperm
  | truncated before hm hn =>
    refine h.quiet rfl (by simp) hm.stored hm.checkpointSequence hn (fun f hf hlt => ?_)
    have hle : before ≤ w.checkpointSequence + 1 := hperm
    exact truncated_retains hf (by omega)
  | reopened hcfg hd hck hn =>
    have hnext : w'.nextSequence = w.nextSequence := by
      rw [hn]
      split
      · rename_i hnil
        rcases hok with hone | hread
        · exact hone.symm
        · exact absurd (hnil ▸ hst.readFrom_one) hread
      · rfl
    exact h.quiet rfl (by simp) (by rw [hd]) (hck.trans h.stored) hnext
      (fun f hf _ => hf)

theorem invariant_run {config : WalConfig} {es : List WalEvent} {w : Wal}
    (run : ClientRun Anchored config es w) :
    ∃ c, Stores w c ∧ w.config = config ∧ Invariant es w c := by
  induction run with
  | start hopen =>
    obtain ⟨v, hv, hst, hc, hn, hck, hstored⟩ := open_empty config
    rw [hv] at hopen
    cases hopen
    refine ⟨_, hst, hc, ?_⟩
    constructor
    · simp [openCheckpoint, hstored, hck]
    · simp
    · omega
    · rintro sequence data ⟨pre, post, hes, _⟩
      simp at hes
  | @step es w w' e _ hperm hok hstep ih =>
    obtain ⟨c, hst, hc, hI⟩ := ih
    have hshort : e.Short := by
      cases e <;> first | exact hok | trivial
    obtain ⟨c', hst', heff⟩ := step_effect hst hstep hshort
    exact ⟨c', hst', heff.config.trans hc, invariant_step hst hI hperm hok heff⟩

theorem Invariant.neverReused {config : WalConfig} {es : List WalEvent} {w : Wal}
    {c : Contents} (hst : Stores w c) (hcfg : w.config = config) (h : Invariant es w c) :
    NeverReused config es w := by
  constructor
  · intro data sequence w' happ
    obtain ⟨v, hv, _⟩ := append_accepted_layout hst.toLayout data (append_ok_fits hst happ)
    rw [hv] at happ
    cases happ
    exact ⟨h.acknowledged, h.stored ▸ h.checkpoint⟩
  · obtain ⟨w', hopen, hst', _, _, _, hck, _⟩ := open_spec hst
    refine ⟨w', _, hcfg ▸ hopen, hst'.readFrom _, fun sequence data hs => ?_⟩
    obtain ⟨hlt, hmem⟩ := h.since sequence data hs
    rw [hck, h.stored]
    exact List.mem_filter.mpr ⟨hmem, decide_eq_true hlt⟩

/-- Sequences are fresh in every run whose reopenings find an entry on disk. -/
theorem sequences_never_reused {config : WalConfig} {es : List WalEvent} {w : Wal}
    (run : ClientRun Anchored config es w) : NeverReused config es w := by
  obtain ⟨c, hst, hcfg, hI⟩ := invariant_run run
  exact hI.neverReused hst hcfg

end

/-- One byte appended, checkpointed, and the directory reopened with it. -/
theorem sequences_never_reused_reopened :
    ∃ w, @ClientRun ieee (@Anchored ieee) ⟨64, true⟩
        [.appended 1 [7], .checkpointed 1, .reopened] w ∧
      @NeverReused ieee ⟨64, true⟩ [.appended 1 [7], .checkpointed 1, .reopened] w := by
  let _ : Crc32 := ieee
  obtain ⟨w, hopen, hst, hc, hn, _⟩ := open_empty ⟨64, true⟩
  obtain ⟨w₁, happ, hst₁, hm₁, hn₁⟩ := append_accepted hst [7] (by decide)
    (by rw [hn]; decide) (by rw [hc]; decide)
  have hcfg : (w₁.checkpoint 1).config = ⟨64, true⟩ := hm₁.config.trans hc
  have hst₂ := checkpoint_stores hst₁ 1
  obtain ⟨w₃, hopen₃, _⟩ := open_spec hst₂
  have hread : (w₁.checkpoint 1).readFrom 1 ≠ .ok [] := by
    rw [hst₂.readFrom_one, grown_entries]
    simp
  rw [hn] at happ
  have hstart : ClientRun Anchored ⟨64, true⟩ [] w := .start hopen
  have run₁ := hstart.step (e := .appended 1 [7]) trivial (by simp [Anchored, WalEvent.Short])
    (.append (by rw [hn]; decide) happ)
  have run₂ := run₁.step (e := .checkpointed 1) ⟨[7], by simp⟩ trivial
    (.checkpoint 1 (by decide))
  have run := run₂.step (e := .reopened) trivial (Or.inr hread) (.reopen hopen₃)
  exact ⟨w₃, run, sequences_never_reused run⟩

/-- A truncation above every sequence, right after a rotation, leaves no entry. -/
theorem truncated_rotated_entries {c : Contents} (id : ℕ) {b : ℕ} (hb : 0 < b)
    (h : ∀ e ∈ c.entries, e.sequence < b) :
    ((c.rotated id).truncated b).entries = [] := by
  have hkept : kept b (c.rotated id).sealed = [] := by
    refine List.filter_eq_nil_iff.mpr (fun p hp => ?_)
    have hlt : maxSequence p.2 < b := by
      refine (maxSequence_lt_iff _ _).mpr ⟨hb, fun e he => h e ?_⟩
      rw [← rotated_entries c id]
      exact List.mem_append_left _
        (List.mem_flatten.mpr ⟨p.2, List.mem_map_of_mem hp, he⟩)
    simpa using hlt
  rw [Contents.entries, Contents.truncated, hkept]
  rfl

/-- Segments of 32 bytes: an append of 17 bytes is refused but leaves an empty active
segment. After a checkpoint and a truncation the reopened directory holds no entry, and
the counter starts again below the checkpoint. -/
theorem sequences_reused :
    ∃ w, @ClientRun ieee (fun _ _ => True) ⟨32, true⟩
        [.appended 1 [7], .rejected (List.replicate 17 0), .checkpointed 1, .truncated 2,
          .reopened] w ∧
      ¬ @NeverReused ieee ⟨32, true⟩
        [.appended 1 [7], .rejected (List.replicate 17 0), .checkpointed 1, .truncated 2,
          .reopened] w := by
  let _ : Crc32 := ieee
  obtain ⟨w, hopen, hst, hc, hn, hck, _⟩ := open_empty ⟨32, true⟩
  obtain ⟨w₁, happ, hst₁, hm₁, hn₁⟩ := append_accepted hst [7] (by decide)
    (by rw [hn]; decide) (by rw [hc]; decide)
  obtain ⟨w₂, hrej, hst₂, hm₂, hn₂⟩ := append_rejected hst₁
    (List.replicate 17 0) (by rw [hm₁.config, hc]; decide)
  have hck₂ : w₂.checkpointSequence = 0 :=
    hm₂.checkpointSequence.trans (hm₁.checkpointSequence.trans hck)
  have hck₃ : (w₂.checkpoint 1).checkpointSequence = 1 := by
    simp [Wal.checkpoint, advanceCheckpoint, hck₂]
  have hopen₃ : openCheckpoint (w₂.checkpoint 1).dir = 1 := by
    simp only [Wal.checkpoint, advanceCheckpoint, hck₂]
    exact openCheckpoint_leBytes (by decide) rfl
  obtain ⟨w₄, htr, hst₄, hm₄, _⟩ := truncateBefore_spec (checkpoint_stores hst₂ 1) 2
  obtain ⟨w₅, hopen₅, hst₅, hcfg₅, hd₅, _, _, hn₅⟩ := open_spec hst₄
  have hcfg : w₅.config = ⟨32, true⟩ := by
    rw [hcfg₅, hm₄.config]
    exact hm₂.config.trans (hm₁.config.trans hc)
  have hnil := truncated_rotated_entries (c := Contents.grown ⟨[], []⟩ w [7])
    w₁.active.id (b := 2) (by decide) (by rw [grown_entries]; simp [Contents.entries, hn])
  rw [if_pos hnil] at hn₅
  rw [hn] at happ
  have hstart : ClientRun (fun _ _ => True) ⟨32, true⟩ [] w := .start hopen
  have run₁ := hstart.step (e := .appended 1 [7]) trivial trivial
    (.append (by rw [hn]; decide) happ)
  have run₂ := run₁.step (e := .rejected (List.replicate 17 0)) trivial trivial (.reject hrej)
  have run₃ := run₂.step (e := .checkpointed 1) ⟨[7], by simp⟩ trivial
    (.checkpoint 1 (by decide))
  have run₄ := run₃.step (e := .truncated 2) (by simp [Permitted, hck₃]) trivial (.truncate htr)
  have run₅ := run₄.step (e := .reopened) trivial trivial (.reopen hopen₅)
  obtain ⟨w₆, happ₆, _⟩ := append_accepted hst₅ [9] (by decide)
    (by rw [hn₅]; decide) (by rw [hcfg]; decide)
  refine ⟨w₅, run₅, fun hnever => ?_⟩
  have hlt := (hnever.1 [9] _ w₆ happ₆).2
  have hstored : openCheckpoint w₅.dir = 1 := by
    rw [hd₅, openCheckpoint_of_stored hm₄.stored, hopen₃]
  omega

end WalSequenceNumbers
