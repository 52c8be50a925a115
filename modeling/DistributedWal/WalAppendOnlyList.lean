import DistributedWal.WalLifetime

/-! # The segmented log behaves as an append-only list

What a WAL returns is a suffix of the list of acknowledged appends. Only truncation
shortens it, and only below the bounds it was given.
-/
namespace WalAppendOnlyList

open LittleEndianCodec WalEntry WalSegment WalEngine WalContents WalLifetime LabelledRuns

/-- No truncation of the history since the append reached past it. -/
def Spared (es : List WalEvent) (sequence : ℕ) (data : Bytes) : Prop :=
  AppendedThen (fun e => ∀ b, e = .truncated b → b ≤ sequence) es sequence data

/-- The abstract list: what is held is a suffix of what was acknowledged, and no spared
entry is missing. -/
structure Suffix (es : List WalEvent) (held : List Entry) : Prop where
  suffix : held <:+ acknowledged es
  spared : ∀ sequence data, Spared es sequence data → ⟨sequence, data⟩ ∈ held

section

variable [Crc32]

theorem suffix_step {es : List WalEvent} {w w' : Wal} {c c' : Contents} {e : WalEvent}
    (hst : Stores w c) (h : Suffix es c.entries) (heff : Effect w c e w' c') :
    Suffix (es ++ [e]) c'.entries := by
  constructor
  · obtain ⟨front, hfront⟩ := h.suffix
    have hsuf := heff.entries_suffix hst
    rw [acknowledged_append, ← hfront, List.append_assoc]
    exact hsuf.trans (List.suffix_append _ _)
  · intro sequence data hsp
    rcases AppendedThen.snoc hsp with rfl | ⟨hold, hb⟩
    · cases heff with
      | appended _ _ _ hc => simp [hc]
    · exact heff.retains (h.spared sequence data hold) hb

theorem run_suffix {config : WalConfig} {es : List WalEvent} {w : Wal}
    (hmax : config.maxSegmentBytes ≤ 2 ^ 32) (run : Run config es w) :
    ∃ c, Stores w c ∧ Suffix es c.entries := by
  obtain ⟨c, hst, _, hs⟩ := run_invariant (fun es _ c => Suffix es c.entries)
    (fun w _ _ => ⟨by simp [Contents.entries], by
      rintro sequence data ⟨pre, post, hes, _⟩
      simp at hes⟩)
    (fun es w c e w' c' hst hI heff => suffix_step hst hI heff) run
    (fun _ _ => Or.inl hmax)
  exact ⟨c, hst, hs⟩

/-- Over every run, `read_from(1)` is a suffix of the acknowledged appends with
consecutive sequences up to the counter, it keeps every entry no truncation reached,
and `read_from(k)` is its part from `k` on. -/
theorem refines_append_only_list {config : WalConfig} {es : List WalEvent} {w : Wal}
    (hmax : config.maxSegmentBytes ≤ 2 ^ 32) (run : Run config es w) :
    ∃ held, w.readFrom 1 = .ok held ∧
      held <:+ acknowledged es ∧
      (∃ first, held.map Entry.sequence = List.range' first held.length) ∧
      (∀ e, held.getLast? = some e → e.sequence + 1 = w.nextSequence) ∧
      (∀ sequence data, Spared es sequence data → ⟨sequence, data⟩ ∈ held) ∧
      ∀ k, w.readFrom k = .ok (held.filter (fun e => k ≤ e.sequence)) := by
  obtain ⟨c, hst, hs⟩ := run_suffix hmax run
  obtain ⟨first, _, _, hcons⟩ := hst.numbered
  exact ⟨c.entries, hst.readFrom_one, hs.suffix, ⟨first, hcons⟩,
    fun e he => hst.numbered.last he, hs.spared, hst.readFrom⟩

/-- A segment of 32 bytes has room for one record of a byte. -/
theorem grown_byte {w : Wal} {c : Contents} {e : Entry} (hst : Stores w c)
    (hmax : w.config.maxSegmentBytes = 32) (hactive : c.active = [e]) (b : UInt8) :
    c.grown w [b] = ⟨c.sealed ++ [(w.active.id, [e])], [⟨w.nextSequence, [b]⟩]⟩ := by
  have hfull : headerSize ≤ (encodeAll c.active).length := by
    rw [hactive]
    simp [Entry.encoded]
  have hover : w.active.wouldOverflow (headerSize + [b].length) = true := by
    rw [hst.toLayout.wouldOverflow, hmax, decide_eq_true_eq]
    have hsize : headerSize = 16 := rfl
    have hlen : [b].length = 1 := rfl
    omega
  rw [Contents.grown, if_pos hover, Contents.rotated, hactive]
  rfl

end

/-- Three segments of 32 bytes with one byte each, of which a truncation deletes the first
before the directory is reopened. -/
theorem refines_append_only_list_truncated :
    ∃ w, @Run ieee ⟨32, true⟩
        [.appended 1 [7], .appended 2 [8], .appended 3 [9], .truncated 2, .reopened] w ∧
      w.sealed.length = 1 ∧ ∃ held, @Wal.readFrom ieee w 1 = .ok held ∧
        held <:+ [⟨1, [7]⟩, ⟨2, [8]⟩, ⟨3, [9]⟩] ∧ ⟨1, [7]⟩ ∉ held ∧ ⟨2, [8]⟩ ∈ held ∧
        @Wal.readFrom ieee w 3 = .ok (held.filter (fun e => 3 ≤ e.sequence)) := by
  let _ : Crc32 := ieee
  obtain ⟨w₀, run₀, hst₀, hc₀, hn₀, _⟩ := run_start ⟨32, true⟩
  have hsmall : headerSize + ([7] : Bytes).length ≤ 32 := by decide
  obtain ⟨w₁, happ₁, hst₁, hm₁, hn₁⟩ := append_accepted hst₀ [7] (by decide)
    (by rw [hn₀]; decide) (by rw [hc₀]; exact hsmall)
  have hc₁ := hm₁.config.trans hc₀
  rw [hn₀] at happ₁ hn₁
  obtain ⟨w₂, happ₂, hst₂, hm₂, hn₂⟩ := append_accepted hst₁ [8] (by decide)
    (by rw [hn₁]; decide) (by rw [hc₁]; exact hsmall)
  have hc₂ := hm₂.config.trans hc₁
  rw [hn₁] at happ₂ hn₂
  obtain ⟨w₃, happ₃, hst₃, hm₃, hn₃⟩ := append_accepted hst₂ [9] (by decide)
    (by rw [hn₂]; decide) (by rw [hc₂]; exact hsmall)
  have hc₃ := hm₃.config.trans hc₂
  rw [hn₂] at happ₃ hn₃
  obtain ⟨w₄, htrunc, hst₄, hm₄, hn₄, _⟩ := truncateBefore_spec hst₃ 2
  obtain ⟨w, hopen, hst, _⟩ := open_spec hst₄
  -- what each segment holds
  have hfirst : Contents.grown ⟨[], []⟩ w₀ [7] = ⟨[], [⟨1, [7]⟩]⟩ := by
    rw [Contents.grown, hst₀.toLayout.wouldOverflow, hc₀, hn₀]
    rfl
  rw [hfirst] at hst₁ hst₂ hst₃ hst₄ hst
  have hsecond := grown_byte hst₁ (by rw [hc₁]) rfl 8
  rw [hsecond] at hst₂ hst₃ hst₄ hst
  have hthird := grown_byte hst₂ (by rw [hc₂]) rfl 9
  have hkept : (Contents.grown (Contents.grown ⟨[], [⟨1, [7]⟩]⟩ w₁ [8]) w₂ [9]).truncated 2 =
      ⟨[(w₂.active.id, [⟨2, [8]⟩])], [⟨3, [9]⟩]⟩ := by
    rw [hsecond, hthird, hn₁, hn₂]
    simp [Contents.truncated, kept, maxSequence]
  rw [← hsecond, hkept] at hst
  have hread := hst.readFrom_one
  have run : Run ⟨32, true⟩
      [.appended 1 [7], .appended 2 [8], .appended 3 [9], .truncated 2, .reopened] w :=
    ((((run₀.snoc (.append (by rw [hn₀]; decide) happ₁)).snoc
      (.append (by rw [hn₁]; decide) happ₂)).snoc
      (.append (by rw [hn₂]; decide) happ₃)).snoc (.truncate htrunc)).snoc (.reopen hopen)
  obtain ⟨held, hheld, hsuf, _, _, hsp, hfrom⟩ := refines_append_only_list (by decide) run
  have hsecond : ⟨2, [8]⟩ ∈ held :=
    hsp 2 [8] ⟨[.appended 1 [7]], [.appended 3 [9], .truncated 2, .reopened], rfl, by simp⟩
  refine ⟨w, run, by rw [hst.sealed_ids]; rfl, held, hheld, hsuf, ?_, hsecond, hfrom 3⟩
  cases hread.symm.trans hheld
  simp [Contents.entries]

end WalAppendOnlyList
