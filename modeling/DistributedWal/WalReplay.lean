import DistributedWal.WalAppendOnlyList
import DistributedWal.WalSequenceNumbers

/-! # What recovery replays

Recovery returns the entries above the checkpoint. While a client truncates no further than
its checkpoint, these are all the appends above it that were ever acknowledged, whatever was
rotated, deleted and reopened in between, and sequences that start again do not disturb them.
-/
namespace WalReplay

open LittleEndianCodec WalEntry WalSegment WalEngine WalContents WalLifetime
open WalSequenceNumbers (openCheckpoint_of_stored)

/-- The highest sequence that was checkpointed. -/
def lastCheckpoint (es : List WalEvent) : ℕ :=
  (es.filterMap fun
    | .checkpointed sequence => some sequence
    | _ => none).foldl max 0

/-- No truncation went past the checkpoint of its time. -/
def Cautious (es : List WalEvent) : Prop :=
  ∀ pre b post, es = pre ++ .truncated b :: post → b ≤ lastCheckpoint pre + 1

def above (k : ℕ) (es : List Entry) : List Entry := es.filter (fun e => k < e.sequence)

structure Marks (es : List WalEvent) (w : Wal) (c : Contents) : Prop where
  current : w.checkpointSequence = lastCheckpoint es
  stored : openCheckpoint w.dir = lastCheckpoint es
  entries : above (lastCheckpoint es) c.entries =
    above (lastCheckpoint es) (acknowledged es)

variable {es : List WalEvent} {e : WalEvent} {w w' : Wal} {c c' : Contents}

theorem lastCheckpoint_checkpointed (es : List WalEvent) (sequence : ℕ) :
    lastCheckpoint (es ++ [.checkpointed sequence]) = max (lastCheckpoint es) sequence := by
  simp [lastCheckpoint, List.filterMap_append]

theorem lastCheckpoint_other (he : ∀ s, e ≠ .checkpointed s) :
    lastCheckpoint (es ++ [e]) = lastCheckpoint es := by
  cases e with
  | checkpointed s => exact absurd rfl (he s)
  | _ => simp [lastCheckpoint, List.filterMap_append]

theorem lastCheckpoint_lt {k : ℕ} (hk : 0 < k) (h : ∀ s, .checkpointed s ∈ es → s < k) :
    lastCheckpoint es < k := by
  induction es using List.reverseRecOn with
  | nil => exact hk
  | append_singleton es e ih =>
    have hes := ih (fun s hs => h s (List.mem_append_left _ hs))
    cases e with
    | checkpointed s =>
      rw [lastCheckpoint_checkpointed]
      exact max_lt hes (h s (by simp))
    | _ => rwa [lastCheckpoint_other (by simp)]

theorem Cautious.front (h : Cautious (es ++ [e])) : Cautious es := by
  intro pre b post hes
  exact h pre b (post ++ [e]) (by rw [hes]; simp)

theorem above_append (k : ℕ) (xs ys : List Entry) :
    above k (xs ++ ys) = above k xs ++ above k ys := List.filter_append ..

theorem above_max (k m : ℕ) (xs : List Entry) : above (max k m) xs = above m (above k xs) := by
  rw [above, above, above, List.filter_filter]
  congr 1
  funext x
  simp [Bool.and_comm]

/-- An event other than a checkpoint, one that keeps what is above the checkpoint and adds
what it acknowledges. -/
theorem Marks.quiet (h : Marks es w c) (he : ∀ s, e ≠ .checkpointed s)
    (hcurrent : w'.checkpointSequence = lastCheckpoint es)
    (hstored : w'.dir.checkpoint = w.dir.checkpoint)
    (hentries : above (lastCheckpoint es) c'.entries =
      above (lastCheckpoint es) (c.entries ++ acknowledged [e])) :
    Marks (es ++ [e]) w' c' := by
  have hlast : lastCheckpoint (es ++ [e]) = lastCheckpoint es := lastCheckpoint_other he
  constructor
  · rw [hlast, hcurrent]
  · rw [hlast, openCheckpoint_of_stored hstored, h.stored]
  · rw [hlast, hentries, above_append, h.entries, acknowledged_append, above_append]

section

variable [Crc32]

/-- What a truncation up to the checkpoint deletes is below it. -/
theorem truncated_above (hst : Stores w c) {b k : ℕ} (hb : b ≤ k + 1) :
    above k (c.truncated b).entries = above k c.entries := by
  obtain ⟨front, hfront⟩ := truncated_suffix b hst.numbered.ascending
  have hnone : above k front = [] := by
    refine List.filter_eq_nil_iff.mpr (fun x hx => ?_)
    have hasc := hst.numbered.ascending
    rw [← hfront, List.map_append, List.pairwise_append] at hasc
    have hgone : x ∉ (c.truncated b).entries := fun hkept =>
      lt_irrefl _ (hasc.2.2 x.sequence (List.mem_map_of_mem hx) x.sequence
        (List.mem_map_of_mem hkept))
    have hlow : x.sequence < b := by
      by_contra hle
      exact hgone (truncated_retains (hfront ▸ List.mem_append_left _ hx) (not_lt.mp hle))
    simp only [decide_eq_true_eq]
    omega
  rw [← hfront, above_append, hnone, List.nil_append]

theorem marks_step (hst : Stores w c) (h : Marks es w c) (hcautious : Cautious (es ++ [e]))
    (heff : Effect w c e w' c') : Marks (es ++ [e]) w' c' := by
  cases heff with
  | appended data hm hn hc =>
    exact h.quiet (by simp) (hm.checkpointSequence.trans h.current) hm.stored (by rw [hc]; rfl)
  | rejected data hm hn hc =>
    refine h.quiet (by simp) (hm.checkpointSequence.trans h.current) hm.stored ?_
    simp [hc, acknowledged]
  | checkpointed sequence hseq =>
    have hack : acknowledged (es ++ [.checkpointed sequence]) = acknowledged es := by
      simp [acknowledged]
    have hlast := lastCheckpoint_checkpointed es sequence
    have hentries : above (max (lastCheckpoint es) sequence) c.entries =
        above (max (lastCheckpoint es) sequence) (acknowledged es) := by
      rw [above_max, above_max, h.entries]
    by_cases hgt : sequence > w.checkpointSequence
    · have hmax : max (lastCheckpoint es) sequence = sequence :=
        max_eq_right (h.current ▸ Nat.le_of_lt hgt)
      have hw : w.checkpoint sequence =
          { w with
            checkpointSequence := sequence
            dir := { w.dir with checkpoint := some (leBytes 8 sequence) } } := by
        simp [Wal.checkpoint, advanceCheckpoint, hgt]
      rw [hw]
      constructor
      · rw [hlast, hmax]
      · rw [hlast, hmax]
        exact openCheckpoint_leBytes hseq rfl
      · rw [hlast, hack, hentries]
    · have hmax : max (lastCheckpoint es) sequence = lastCheckpoint es :=
        max_eq_left (h.current ▸ not_lt.mp hgt)
      have hw : w.checkpoint sequence = w := by
        simp [Wal.checkpoint, advanceCheckpoint, hgt]
      rw [hw]
      constructor
      · rw [hlast, hmax, h.current]
      · rw [hlast, hmax, h.stored]
      · rw [hlast, hack, hentries]
  | truncated before hm hn =>
    have hb : before ≤ lastCheckpoint es + 1 := hcautious es before [] rfl
    refine h.quiet (by simp) (hm.checkpointSequence.trans h.current) hm.stored ?_
    rw [truncated_above hst hb, acknowledged]
    simp
  | reopened hcfg hd hck hn =>
    refine h.quiet (by simp) (hck.trans h.stored) (by rw [hd]) ?_
    simp [acknowledged]

/-- Over every run with truncations up to the checkpoint and checkpoints that leave room for
one more sequence: the checkpoint is the highest sequence that was checkpointed, the one after
it still fits, and recovery returns the acknowledged appends above it, each once and in order.
The same after a reopening. -/
theorem recovery_replays_exactly {config : WalConfig} (hmax : config.maxSegmentBytes ≤ 2 ^ 32)
    (run : Run config es w) (hcautious : Cautious es)
    (hroom : ∀ s, .checkpointed s ∈ es → s < 2 ^ 64 - 1) :
    w.checkpointSequence = lastCheckpoint es ∧ w.checkpointSequence + 1 < 2 ^ 64 ∧
      w.recover = .ok (above (lastCheckpoint es) (acknowledged es)) ∧
      ∃ w', Wal.open config w.dir = .ok w' ∧ w'.checkpointSequence = lastCheckpoint es ∧
        w'.recover = .ok (above (lastCheckpoint es) (acknowledged es)) := by
  obtain ⟨c, hst, hcfg, hmarks⟩ := run_invariant (fun es w c => Cautious es → Marks es w c)
    (fun w hopen hst _ => by
      obtain ⟨v, hv, _, _, _, hck, hstored⟩ := open_empty config
      rw [hv] at hopen
      cases hopen
      exact ⟨hck, by simp [openCheckpoint, hstored, lastCheckpoint], rfl⟩)
    (fun es w c e w' c' hst hI heff hcautious =>
      marks_step hst (hI hcautious.front) hcautious heff)
    run (fun _ _ => Or.inl hmax)
  have h := hmarks hcautious
  have hnext : w.checkpointSequence + 1 < 2 ^ 64 := by
    have hlast := lastCheckpoint_lt (by decide) hroom
    rw [h.current]
    omega
  have hread : ∀ v, Stores v c → v.checkpointSequence = lastCheckpoint es →
      v.recover = .ok (above (lastCheckpoint es) (acknowledged es)) := by
    intro v hv hck
    rw [Wal.recover, hv.readFrom, hck, ← h.entries]
    rfl
  obtain ⟨w', hopen, hst', _, _, _, hck, _⟩ := open_spec hst
  have hck' := hck.trans h.stored
  exact ⟨h.current, hnext, hread w hst h.current, w', hcfg ▸ hopen, hck', hread w' hst' hck'⟩

end

/-- Of two appends with a checkpoint between them, the second is replayed. -/
theorem recovery_replays_exactly_second :
    ∃ w, @Run ieee ⟨64, true⟩ [.appended 1 [7], .checkpointed 1, .appended 2 [8]] w ∧
      @Wal.recover ieee w = .ok [⟨2, [8]⟩] := by
  let _ : Crc32 := ieee
  obtain ⟨w, run, hst, hc, hn, _⟩ := run_start ⟨64, true⟩
  obtain ⟨w₁, happ, hst₁, hm₁, hn₁⟩ := append_accepted hst [7] (by decide)
    (by rw [hn]; decide) (by rw [hc]; decide)
  rw [hn] at happ hn₁
  have run₁ := run.snoc (.append (by rw [hn]; decide) happ)
  have run₂ := run₁.snoc (.checkpoint 1 (by decide))
  have hn₂ : (w₁.checkpoint 1).nextSequence = 2 := hn₁
  have hc₂ : (w₁.checkpoint 1).config = ⟨64, true⟩ := hm₁.config.trans hc
  obtain ⟨w₃, happ₃, _⟩ := append_accepted (checkpoint_stores hst₁ 1) [8] (by decide)
    (by rw [hn₂]; decide) (by rw [hc₂]; decide)
  rw [hn₂] at happ₃
  have run₃ := run₂.snoc (.append (by rw [hn₂]; decide) happ₃)
  have hcautious : Cautious [.appended 1 [7], .checkpointed 1, .appended 2 [8]] := by
    intro pre b post hes
    have hmem : WalEvent.truncated b ∈ [.appended 1 [7], .checkpointed 1, .appended 2 [8]] :=
      hes ▸ List.mem_append_right _ (by simp)
    simp at hmem
  have hroom : ∀ s, WalEvent.checkpointed s ∈
      [.appended 1 [7], .checkpointed 1, .appended 2 [8]] → s < 2 ^ 64 - 1 := by
    intro s hs
    simp at hs
    omega
  exact ⟨w₃, run₃, (recovery_replays_exactly (by decide) run₃ hcautious hroom).2.2.1⟩

end WalReplay
