import DistributedWal.LabelledRuns
import DistributedWal.WalContents

/-! # The lifetime of a WAL directory

A run starts from an empty directory and goes through appends, checkpoints,
truncations and reopenings in any order. No file operation fails.
-/
namespace WalLifetime

open LittleEndianCodec WalEntry WalSegment WalEngine WalContents LabelledRuns

inductive WalEvent where
  | appended (sequence : ℕ) (data : Bytes)
  | rejected (data : Bytes)
  | checkpointed (sequence : ℕ)
  | truncated (beforeSequence : ℕ)
  | reopened

/-- The appends that returned a sequence, in order. -/
def acknowledged (es : List WalEvent) : List Entry :=
  es.filterMap fun
    | .appended sequence data => some ⟨sequence, data⟩
    | _ => none

/-- An append of the history, and only events that satisfy `ok` since. -/
def AppendedThen (ok : WalEvent → Prop) (es : List WalEvent) (sequence : ℕ)
    (data : Bytes) : Prop :=
  ∃ pre post, es = pre ++ .appended sequence data :: post ∧ ∀ e ∈ post, ok e

theorem AppendedThen.snoc {ok : WalEvent → Prop} {es : List WalEvent} {e : WalEvent}
    {sequence : ℕ} {data : Bytes} (h : AppendedThen ok (es ++ [e]) sequence data) :
    e = .appended sequence data ∨ AppendedThen ok es sequence data ∧ ok e := by
  obtain ⟨pre, post, hes, hok⟩ := h
  rcases List.eq_nil_or_concat post with rfl | ⟨post, f, rfl⟩
  · exact Or.inl (List.append_inj' hes rfl).2 |>.imp_left List.singleton_inj.mp
  · simp only [List.concat_eq_append] at hes hok
    rw [← List.cons_append, ← List.append_assoc] at hes
    obtain ⟨rfl, hf⟩ := List.append_inj' hes rfl
    obtain rfl := List.singleton_inj.mp hf
    exact Or.inr ⟨⟨pre, post, rfl, fun g hg => hok g (List.mem_append_left _ hg)⟩,
      hok e (by simp)⟩

@[simp] theorem acknowledged_nil : acknowledged [] = [] := rfl

@[simp] theorem acknowledged_append (es fs : List WalEvent) :
    acknowledged (es ++ fs) = acknowledged es ++ acknowledged fs :=
  List.filterMap_append

@[simp] theorem acknowledged_appended (sequence : ℕ) (data : Bytes) :
    acknowledged [.appended sequence data] = [⟨sequence, data⟩] := rfl

theorem mem_acknowledged {es : List WalEvent} {e : Entry} :
    e ∈ acknowledged es ↔ .appended e.sequence e.data ∈ es := by
  constructor
  · intro h
    obtain ⟨f, hf, he⟩ := List.mem_filterMap.mp h
    cases f <;> cases he
    exact hf
  · intro h
    exact List.mem_filterMap.mpr ⟨_, h, rfl⟩

/-- What a step does to the contents. -/
inductive Effect (w : Wal) (c : Contents) : WalEvent → Wal → Contents → Prop where
  | appended {w' : Wal} {c' : Contents} (data : Bytes) : SameMarks w w' →
      w'.nextSequence = w.nextSequence + 1 →
      c'.entries = c.entries ++ [⟨w.nextSequence, data⟩] →
      Effect w c (.appended w.nextSequence data) w' c'
  | rejected {w' : Wal} {c' : Contents} (data : Bytes) : SameMarks w w' →
      w'.nextSequence = w.nextSequence → c'.entries = c.entries →
      Effect w c (.rejected data) w' c'
  | checkpointed (sequence : ℕ) : sequence < 2 ^ 64 →
      Effect w c (.checkpointed sequence) (w.checkpoint sequence) c
  | truncated {w' : Wal} (before : ℕ) : SameMarks w w' →
      w'.nextSequence = w.nextSequence →
      Effect w c (.truncated before) w' (c.truncated before)
  | reopened {w' : Wal} : w'.config = w.config → w'.dir = w.dir →
      w'.checkpointSequence = openCheckpoint w.dir →
      w'.nextSequence = (if c.entries = [] then 1 else w.nextSequence) →
      Effect w c .reopened w' c

theorem Effect.config {w w' : Wal} {c c' : Contents} {e : WalEvent}
    (h : Effect w c e w' c') : w'.config = w.config := by
  cases h with
  | appended _ hm => exact hm.config
  | rejected _ hm => exact hm.config
  | checkpointed => rfl
  | truncated _ hm => exact hm.config
  | reopened hc => exact hc

/-- An entry leaves only through a truncation at a bound above its sequence. -/
theorem Effect.retains {w w' : Wal} {c c' : Contents} {e : WalEvent} {f : Entry}
    (h : Effect w c e w' c') (hf : f ∈ c.entries)
    (hb : ∀ b, e = .truncated b → b ≤ f.sequence) : f ∈ c'.entries := by
  cases h with
  | appended data _ _ hc => exact hc ▸ List.mem_append_left _ hf
  | rejected data _ _ hc => exact hc ▸ hf
  | checkpointed => exact hf
  | truncated before => exact truncated_retains hf (hb before rfl)
  | reopened => exact hf

variable [Crc32]

/-- One operation. An append is a step while the sequence counter, a `u64`, can still
be advanced. -/
inductive Step : Wal → WalEvent → Wal → Prop where
  | append {w w' : Wal} {data : Bytes} {sequence : ℕ} : w.nextSequence + 1 < 2 ^ 64 →
      w.append data = (.ok sequence, w') → Step w (.appended sequence data) w'
  | reject {w w' : Wal} {data : Bytes} {err : WalError} :
      w.append data = (.error err, w') → Step w (.rejected data) w'
  | checkpoint {w : Wal} (sequence : ℕ) : sequence < 2 ^ 64 →
      Step w (.checkpointed sequence) (w.checkpoint sequence)
  | truncate {w w' : Wal} {before : ℕ} {result : Except WalError Unit} :
      w.truncateBefore before = (result, w') → Step w (.truncated before) w'
  | reopen {w w' : Wal} : Wal.open w.config w.dir = .ok w' → Step w .reopened w'

def Run (config : WalConfig) (es : List WalEvent) (w : Wal) : Prop :=
  ∃ w₀, Wal.open config Dir.empty = .ok w₀ ∧ Steps Step w₀ es w

theorem append_ok_fits {w w' : Wal} {c : Contents} (h : Stores w c) {data : Bytes}
    {sequence : ℕ} (happ : w.append data = (.ok sequence, w')) :
    headerSize + data.length ≤ w.config.maxSegmentBytes := by
  by_contra hfit
  obtain ⟨v, hv, _⟩ := append_rejected h data hfit
  rw [hv] at happ
  cases happ

/-- The payloads appended have a length that the `u32` field can hold. -/
def WalEvent.Short : WalEvent → Prop
  | .appended _ data => data.length < 2 ^ 32
  | _ => True

theorem step_effect {w w' : Wal} {c : Contents} {e : WalEvent} (h : Stores w c)
    (hs : Step w e w') (hshort : e.Short) : ∃ c', Stores w' c' ∧ Effect w c e w' c' := by
  cases hs with
  | append hseq happ =>
    rename_i data sequence
    obtain ⟨v, hv, hst, hm, hn⟩ :=
      append_accepted h data hshort (by omega) (append_ok_fits h happ)
    rw [hv] at happ
    cases happ
    exact ⟨_, hst, .appended data hm hn (grown_entries c w data)⟩
  | reject happ =>
    rename_i data err
    by_cases hfit : headerSize + data.length ≤ w.config.maxSegmentBytes
    · -- an append that fits is accepted, whatever its length field says
      obtain ⟨v, hv, _⟩ := append_accepted_layout h.toLayout data hfit
      rw [hv] at happ
      cases happ
    · obtain ⟨v, hv, hst, hm, hn⟩ := append_rejected h data hfit
      rw [hv] at happ
      cases happ
      exact ⟨_, hst, .rejected data hm hn (rotated_entries c _)⟩
  | checkpoint sequence hseq =>
    exact ⟨c, checkpoint_stores h sequence, .checkpointed sequence hseq⟩
  | truncate htr =>
    rename_i before result
    obtain ⟨v, hv, hst, hm, hn, _⟩ := truncateBefore_spec h before
    rw [hv] at htr
    cases htr
    exact ⟨_, hst, .truncated before hm hn⟩
  | reopen hopen =>
    obtain ⟨v, hv, hst, hc, hd, _, hck, hn⟩ := open_spec h
    rw [hv] at hopen
    cases hopen
    exact ⟨c, hst, .reopened hc hd hck hn⟩

/-- A step leaves a suffix of what was held, extended by what it acknowledged. -/
theorem Effect.entries_suffix {w w' : Wal} {c c' : Contents} {e : WalEvent}
    (hst : Stores w c) (h : Effect w c e w' c') :
    c'.entries <:+ c.entries ++ acknowledged [e] := by
  cases h with
  | appended data _ _ hc => exact hc ▸ List.suffix_rfl
  | rejected data _ _ hc => simpa [acknowledged] using hc ▸ List.suffix_rfl
  | checkpointed => simp [acknowledged]
  | truncated before =>
    simpa [acknowledged] using truncated_suffix before hst.numbered.ascending
  | reopened => simp [acknowledged]

/-- What every step keeps of a history, a WAL and its contents holds after every run. The
appended payloads are short, or no segment is large enough for a long one. -/
theorem run_invariant {config : WalConfig} (I : List WalEvent → Wal → Contents → Prop)
    (start : ∀ w, Wal.open config Dir.empty = .ok w → Stores w ⟨[], []⟩ →
      I [] w ⟨[], []⟩)
    (preserved : ∀ es w c e w' c', Stores w c → I es w c → Effect w c e w' c' →
      I (es ++ [e]) w' c')
    {es : List WalEvent} {w : Wal} (run : Run config es w)
    (hshort : ∀ e ∈ es, config.maxSegmentBytes ≤ 2 ^ 32 ∨ e.Short) :
    ∃ c, Stores w c ∧ w.config = config ∧ I es w c := by
  obtain ⟨w₀, hopen, hsteps⟩ := run
  induction hsteps with
  | nil =>
    obtain ⟨v, hv, hst, hc, _⟩ := open_empty config
    rw [hv] at hopen
    cases hopen
    exact ⟨_, hst, hc, start _ hv hst⟩
  | snoc _ hstep ih =>
    rename_i e _
    obtain ⟨c, hst, hc, hI⟩ := ih (fun f hf => hshort f (List.mem_append_left _ hf))
    have he : e.Short := by
      rcases hshort e (by simp) with hmax | he
      · cases hstep with
        | append _ happ =>
          have hfit := append_ok_fits hst happ
          have : headerSize = 16 := rfl
          simp only [WalEvent.Short]
          rw [hc] at hfit
          omega
        | _ => trivial
      · exact he
    obtain ⟨c', hst', heff⟩ := step_effect hst hstep he
    exact ⟨c', hst', heff.config.trans hc, preserved _ _ _ _ _ _ hst hI heff⟩

/-- An empty directory opens, and an append that fits extends a run. -/
theorem run_start (config : WalConfig) : ∃ w, Run config [] w ∧ Stores w ⟨[], []⟩ ∧
    w.config = config ∧ w.nextSequence = 1 ∧ w.checkpointSequence = 0 := by
  obtain ⟨w, hopen, hst, hc, hn, hck, _⟩ := open_empty config
  exact ⟨w, ⟨w, hopen, .nil w⟩, hst, hc, hn, hck⟩

theorem Run.snoc {config : WalConfig} {es : List WalEvent} {e : WalEvent} {w w' : Wal}
    (h : Run config es w) (hs : Step w e w') : Run config (es ++ [e]) w' := by
  obtain ⟨w₀, hopen, hsteps⟩ := h
  exact ⟨w₀, hopen, .snoc hsteps hs⟩

end WalLifetime
