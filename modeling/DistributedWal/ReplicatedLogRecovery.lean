import DistributedWal.LabelledRuns
import DistributedWal.ReplicatedLogContents

/-! # What reopening a log gives back

A compaction deletes every sealed segment, so the replay can start in the middle of the
history. It still rebuilds the live log when no record was lost, or when the entries
appended above the snapshot point in the active segment are exactly the retained ones.
-/
namespace ReplicatedLogRecovery

open LittleEndianCodec WalEntry WalSegment WalEngine WalContents ReplicatedLog
open ReplicatedLogContents LabelledRuns

/-- The entry of an APPEND record. -/
def appendRecord : Bytes → Option LogEntry
  | [] => none
  | kind :: rest => if kind = kindAppend then decodeAppend rest else none

def appendsAbove (i : ℕ) (payloads : List Bytes) : List LogEntry :=
  (payloads.filterMap appendRecord).filter (fun e => e.index > i)

/-- The records a running log writes between two views, no SNAPSHOT among them. -/
inductive Journal (base : LogView) : List Bytes → LogView → Prop where
  | start : Journal base [] base
  | append {rs : List Bytes} {v : LogView} {term : ℕ} {data : Bytes} : Journal base rs v →
      term < 2 ^ 64 → v.lastIndex + 1 < 2 ^ 64 →
      Journal base (rs ++ [encodeAppend ⟨term, v.lastIndex + 1, data⟩]) (v.push term data)
  | truncate {rs : List Bytes} {v : LogView} {i : ℕ} : Journal base rs v →
      v.snapshotIndex < i → i ≤ v.lastIndex → i < 2 ^ 64 →
      Journal base (rs ++ [encodeTruncate i]) (v.cut i)

@[simp] theorem appendRecord_append {e : LogEntry} (hi : e.index < 2 ^ 64)
    (ht : e.term < 2 ^ 64) : appendRecord (encodeAppend e) = some e := by
  rw [encodeAppend, appendRecord, if_pos rfl, decodeAppend_encoded hi ht]

@[simp] theorem appendRecord_truncate (i : ℕ) : appendRecord (encodeTruncate i) = none := rfl

theorem appendsAbove_append (i : ℕ) (ps qs : List Bytes) :
    appendsAbove i (ps ++ qs) = appendsAbove i ps ++ appendsAbove i qs := by
  simp [appendsAbove]

theorem appendsAbove_appended (i : ℕ) {e : LogEntry} (hi : e.index < 2 ^ 64)
    (ht : e.term < 2 ^ 64) :
    appendsAbove i [encodeAppend e] = if e.index > i then [e] else [] := by
  simp [appendsAbove, appendRecord_append hi ht, List.filter_cons]

theorem appendsAbove_truncated (i j : ℕ) : appendsAbove i [encodeTruncate j] = [] := rfl

theorem mem_appendsAbove {i : ℕ} {payloads : List Bytes} {e : LogEntry}
    (h : e ∈ appendsAbove i payloads) : i < e.index :=
  of_decide_eq_true (List.mem_filter.mp h).2

theorem Journal.contiguous {base v : LogView} {rs : List Bytes} (h : Journal base rs v)
    (hb : base.Contiguous) : v.Contiguous ∧ v.snapshotIndex = base.snapshotIndex := by
  induction h with
  | start => exact ⟨hb, rfl⟩
  | append _ _ _ ih => exact ⟨ih.1.push _ _, ih.2⟩
  | truncate _ _ _ _ ih => exact ⟨ih.1.cut _, ih.2⟩

theorem filter_set_of_neg {α : Type*} {p : α → Bool} {l : List α} {n : ℕ} {a : α}
    (ha : p a = false) (hl : ∀ x, l[n]? = some x → p x = false) :
    (l.set n a).filter p = l.filter p := by
  induction l generalizing n with
  | nil => rfl
  | cons b l ih =>
    cases n with
    | zero =>
      have hb := hl b rfl
      simp [ha, hb]
    | succ n =>
      have ih := ih (n := n) (fun x hx => hl x (by simpa using hx))
      simp only [List.set_cons_succ, List.filter_cons, ih]

theorem filter_take_of_neg {α : Type*} {p : α → Bool} {l : List α} {n : ℕ}
    (hl : ∀ k x, n ≤ k → l[k]? = some x → p x = false) :
    (l.take n).filter p = l.filter p := by
  conv_rhs => rw [← List.take_append_drop n l]
  have hdrop : (l.drop n).filter p = [] := by
    refine List.filter_eq_nil_iff.mpr (fun x hx => ?_)
    obtain ⟨k, hk⟩ := List.mem_iff_getElem?.mp hx
    rw [List.getElem?_drop] at hk
    simp [hl (n + k) x (by omega) hk]
  rw [List.filter_append, hdrop, List.append_nil]

/-- What a replay from the middle of the history knows. -/
structure Tail (i : ℕ) (rs : List Bytes) (r : LogView) : Prop where
  snapshotIndex : r.snapshotIndex = 0
  position : ∀ p e, r.entries[p]? = some e → p + 1 ≤ e.index
  above : r.entries.filter (fun e => e.index > i) = appendsAbove i rs

theorem Tail.mem {i : ℕ} {rs : List Bytes} {r : LogView} (h : Tail i rs r) {e : LogEntry}
    (he : e ∈ r.entries) (hi : i < e.index) : e ∈ appendsAbove i rs := by
  rw [← h.above]
  exact List.mem_filter.mpr ⟨he, decide_eq_true hi⟩

/-- An APPEND record above everything kept so far: if it overwrites a position, the entry
there and the new one lie at or below `i`. -/
theorem Tail.append {i : ℕ} {rs : List Bytes} {r : LogView} (h : Tail i rs r)
    {e : LogEntry} (hi : e.index < 2 ^ 64) (ht : e.term < 2 ^ 64) (hpos : 0 < e.index)
    (hlow : ∀ f ∈ r.entries, i < f.index → f.index < e.index) :
    Tail i (rs ++ [encodeAppend e]) (r.replayAppend e) := by
  have habove : appendsAbove i (rs ++ [encodeAppend e]) =
      r.entries.filter (fun e => e.index > i) ++ if e.index > i then [e] else [] := by
    rw [appendsAbove_append, appendsAbove_appended i hi ht, h.above]
  rw [LogView.replayAppend, if_pos (by rw [h.snapshotIndex]; exact hpos), h.snapshotIndex]
  by_cases hoff : e.index - (0 + 1) < r.entries.length
  · rw [if_pos hoff]
    have hold : ∀ f, r.entries[e.index - (0 + 1)]? = some f →
        f.index ≤ i ∧ e.index ≤ f.index := by
      intro f hf
      have hfpos := h.position _ f hf
      refine ⟨?_, by omega⟩
      by_contra hlt
      have := hlow f (List.mem_of_getElem? hf) (by omega)
      omega
    have hle := hold _ (List.getElem?_eq_getElem hoff)
    refine ⟨rfl, ?_, ?_⟩
    · intro p g hg
      simp only at hg
      rcases eq_or_ne (e.index - (0 + 1)) p with rfl | hne
      · rw [List.getElem?_set_self hoff] at hg
        cases hg
        omega
      · rw [List.getElem?_set_ne hne] at hg
        exact h.position p g hg
    · rw [habove, if_neg (by omega), List.append_nil]
      apply filter_set_of_neg
      · exact decide_eq_false (by omega)
      · exact fun g hg => decide_eq_false (Nat.not_lt.mpr (hold g hg).1)
  · rw [if_neg hoff]
    refine ⟨rfl, ?_, ?_⟩
    · intro p g hg
      simp only at hg
      rcases Nat.lt_or_ge p r.entries.length with hlt | hge
      · rw [List.getElem?_append_left hlt] at hg
        exact h.position p g hg
      · rw [List.getElem?_append_right hge] at hg
        have hp : p - r.entries.length = 0 := by
          by_contra hne
          rw [List.getElem?_eq_none (by simp; omega)] at hg
          cases hg
        rw [hp] at hg
        cases hg
        omega
    · rw [habove]
      simp [List.filter_append, List.filter_cons]

theorem Tail.truncate {i j : ℕ} {rs : List Bytes} {r : LogView} (h : Tail i rs r)
    (hpos : 0 < j) (hlow : ∀ f ∈ r.entries, i < f.index → f.index < j) :
    Tail i (rs ++ [encodeTruncate j]) (r.replayTruncate j) := by
  have htake : r.replayTruncate j = ⟨r.entries.take (j - 1), 0, r.snapshotTerm⟩ := by
    have hsi := h.snapshotIndex
    rcases Nat.lt_or_ge 1 j with hj | hj
    · rw [LogView.replayTruncate, hsi, if_pos (by omega), Nat.sub_zero, ← hsi]
    · rw [LogView.replayTruncate, hsi, if_neg (by omega), if_pos (by omega),
        show j - 1 = 0 by omega, List.take_zero, ← hsi]
  rw [htake]
  refine ⟨rfl, ?_, ?_⟩
  · intro p g hg
    simp only at hg
    rw [List.getElem?_take] at hg
    split at hg
    · exact h.position p g hg
    · cases hg
  · rw [appendsAbove_append, appendsAbove_truncated, List.append_nil, ← h.above]
    apply filter_take_of_neg
    intro k g hk hg
    have := h.position k g hg
    refine decide_eq_false (fun hi => ?_)
    have := hlow g (List.mem_of_getElem? hg) hi
    omega

/-- Replaying the records of a journal without its base gives the entries above `i`,
when every entry appended above `i` is still live at the end. -/
theorem Journal.tail {base v : LogView} {rs : List Bytes} {i : ℕ} (h : Journal base rs v)
    (hb : base.Contiguous) (hnodup : (appendsAbove i rs).Nodup)
    (hlive : ∀ e ∈ appendsAbove i rs, e ∈ v.entries) :
    Tail i rs (replay LogView.empty rs) := by
  induction h with
  | start => exact ⟨rfl, by simp [LogView.empty], rfl⟩
  | @append rs v term data hj ht hbound ih =>
    obtain ⟨hcont, _⟩ := hj.contiguous hb
    have happ := appendsAbove_appended i (e := ⟨term, v.lastIndex + 1, data⟩) hbound ht
    rw [appendsAbove_append, happ] at hnodup hlive
    have hlive' : ∀ f ∈ appendsAbove i rs, f ∈ v.entries := by
      intro f hf
      rcases List.mem_append.mp (hlive f (List.mem_append_left _ hf)) with hv | hv
      · exact hv
      · -- the entry just appended cannot be one that was appended before
        obtain rfl := List.mem_singleton.mp hv
        rw [if_pos (mem_appendsAbove hf)] at hnodup
        exact absurd rfl ((List.nodup_append.mp hnodup).2.2 _ hf _ (by simp))
    have ih := ih (List.nodup_append.mp hnodup).1 hlive'
    rw [replay_append, replay_singleton, replayRecord_append hbound ht]
    refine ih.append hbound ht (Nat.succ_pos _) (fun f hf hi => ?_)
    exact Nat.lt_succ_of_le (hcont.bounds (hlive' f (ih.mem hf hi))).2
  | @truncate rs v j hj hsi hlast hbound ih =>
    obtain ⟨hcont, _⟩ := hj.contiguous hb
    rw [appendsAbove_append, appendsAbove_truncated, List.append_nil] at hnodup hlive
    have ih := ih hnodup (fun f hf => List.mem_of_mem_take (hlive f hf))
    rw [replay_append, replay_singleton, replayRecord_truncate hbound]
    refine ih.truncate (by omega) (fun f hf hi => ?_)
    -- an entry above `i` that the truncation removed would not be live any more
    obtain ⟨m, hm⟩ := List.mem_iff_getElem?.mp (hlive f (ih.mem hf hi))
    rw [LogView.cut, List.getElem?_take] at hm
    split at hm
    · have := hcont m f hm
      omega
    · cases hm

/-- A SNAPSHOT record after such a journal gives the log with its new snapshot point. -/
theorem Journal.replaySnapshot {base v : LogView} {rs : List Bytes} {i : ℕ}
    (h : Journal base rs v) (hb : base.Contiguous) (hv : v.Contiguous) (t : ℕ)
    (hkept : appendsAbove i rs = v.entries.filter (fun e => e.index > i)) :
    (replay LogView.empty rs).replaySnapshot i t = v.replaySnapshot i t := by
  have hnodup : (appendsAbove i rs).Nodup := by
    rw [hkept]
    exact (List.Nodup.of_map _ hv.nodup).filter _
  have hlive : ∀ e ∈ appendsAbove i rs, e ∈ v.entries := by
    rw [hkept]
    exact fun e he => List.mem_of_mem_filter he
  have htail := h.tail hb hnodup hlive
  rw [LogView.replaySnapshot, htail.above, hkept, LogView.replaySnapshot]

def payloads (es : List Entry) : List Bytes := es.map Entry.data

@[simp] theorem payloads_append (es fs : List Entry) :
    payloads (es ++ fs) = payloads es ++ payloads fs := List.map_append

inductive LogEvent where
  | appended (term : ℕ) (data : Bytes)
  | truncated (fromIndex : ℕ)
  | compacted (lastIndex lastTerm : ℕ)
  | installed (lastIndex lastTerm : ℕ)
  | reopened

section

variable [Crc32]

/-- The records a compaction starting now deletes and the ones it leaves. -/
def recordsSplit (wal : Wal) : Except WalError (List Entry × List Entry) :=
  match readSealed wal.dir wal.sealed with
  | .error e => .error e
  | .ok front =>
    match readEntries wal.dir wal.active.id with
    | .error e => .error e
    | .ok back =>
      if wal.active.wouldOverflow snapshotRecordSize then .ok (front ++ back, [])
      else .ok (front, back)

/-- A compaction at `i` deletes no record, or the APPEND records above `i` that it leaves
are exactly the entries the log retains. -/
def TailSurvives (log : RaftLog) (i : ℕ) : Prop :=
  ∃ lost left, recordsSplit log.wal = .ok (lost, left) ∧
    (lost = [] ∨ appendsAbove i (payloads left) =
      log.entries.filter (fun e => e.index > i))

/-- The condition on a step: compactions keep the tail, payloads fit the length field. -/
def KeepsTail (log : RaftLog) : LogEvent → Prop
  | .appended _ data => 17 + data.length < 2 ^ 32
  | .compacted i _ => TailSurvives log i
  | .installed i _ => log.snapshotIndex < i → TailSurvives log i
  | _ => True

/-- A successful operation. The counters stay below `2 ^ 64`. -/
inductive Step : RaftLog → LogEvent → RaftLog → Prop where
  | append {log log' : RaftLog} {term index : ℕ} {data : Bytes} : term < 2 ^ 64 →
      log.lastIndex + 1 < 2 ^ 64 → log.wal.nextSequence + 1 < 2 ^ 64 →
      log.append term data = (.ok index, log') → Step log (.appended term data) log'
  | truncate {log log' : RaftLog} {i : ℕ} : log.wal.nextSequence + 1 < 2 ^ 64 →
      log.truncateFrom i = (.ok (), log') → Step log (.truncated i) log'
  | compact {log log' : RaftLog} {i t : ℕ} : log.wal.nextSequence + 1 < 2 ^ 64 →
      log.snapshotIndex < i → i ≤ log.lastIndex → log.termAt i = some t →
      log.compact i t = (.ok (), log') → Step log (.compacted i t) log'
  | install {log log' : RaftLog} {i t : ℕ} : log.wal.nextSequence + 1 < 2 ^ 64 →
      i < 2 ^ 64 → t < 2 ^ 64 → log.installSnapshot i t = (.ok (), log') →
      Step log (.installed i t) log'
  | reopen {log log' : RaftLog} :
      RaftLog.open log.wal.config log.wal.dir = .ok log' → Step log .reopened log'

/-- Runs on a fresh directory whose steps all satisfy `ok` where they start. -/
inductive LogRun (ok : RaftLog → LogEvent → Prop) (config : WalConfig) :
    List LogEvent → RaftLog → Prop where
  | start {log : RaftLog} : RaftLog.open config Dir.empty = .ok log →
      LogRun ok config [] log
  | step {es : List LogEvent} {log log' : RaftLog} {e : LogEvent} :
      LogRun ok config es log → ok log e → Step log e log' →
      LogRun ok config (es ++ [e]) log'

/-- Reopening the directory gives back the live log. -/
def Recovers (log : RaftLog) : Prop :=
  ∃ log', RaftLog.open log.wal.config log.wal.dir = .ok log' ∧
    log'.toLogView = log.toLogView

structure Invariant (log : RaftLog) (c : Contents) : Prop extends Healthy log c where
  replayed : replay LogView.empty (payloads c.entries) = log.toLogView
  /-- Either every record is in the active segment, or the active segment is the journal
  of the operations since some earlier view. -/
  origin : (c.sealed.map Prod.snd).flatten = [] ∨
    ∃ base : LogView, base.Contiguous ∧
      Journal base (payloads c.active) log.toLogView
  lastIndex : log.lastIndex < 2 ^ 64
  snapshotTerm : log.snapshotTerm < 2 ^ 64
  terms : ∀ e ∈ log.entries, e.term < 2 ^ 64
  counter : log.wal.nextSequence < 2 ^ 64

variable {log log' : RaftLog} {c : Contents}

/-- A record that continues every journal of the log. -/
theorem Invariant.grown (h : Invariant log c) {record : Bytes} {v : LogView}
    (hnext : ∀ base rs, Journal base rs log.toLogView → Journal base (rs ++ [record]) v)
    (hreplay : replayRecord log.toLogView record = v) :
    replay LogView.empty (payloads (c.grown log.wal record).entries) = v ∧
      (((c.grown log.wal record).sealed.map Prod.snd).flatten = [] ∨
        ∃ base : LogView, base.Contiguous ∧
          Journal base (payloads (c.grown log.wal record).active) v) := by
  constructor
  · rw [grown_entries, payloads_append, replay_append, h.replayed]
    exact hreplay
  · rw [Contents.grown]
    split
    · exact Or.inr ⟨log.toLogView, h.contiguous, hnext _ _ .start⟩
    · rcases h.origin with hnil | ⟨base, hb, hj⟩
      · exact Or.inl hnil
      · refine Or.inr ⟨base, hb, ?_⟩
        simp only [Contents.appended, payloads_append]
        exact hnext base _ hj

theorem recordsSplit_eq (h : Stores log.wal c) :
    recordsSplit log.wal = .ok (lostRecords log.wal c, survivingRecords log.wal c) := by
  have hfront := readSealed_eq (fun p hp => h.read_sealed hp)
  rw [← h.sealed_ids] at hfront
  simp only [recordsSplit, hfront, h.read_active, lostRecords, survivingRecords]
  split <;> rfl

/-- The records left by a compaction replay to the compacted log. -/
theorem Invariant.journalled (h : Invariant log c) {i t : ℕ} (hi64 : i < 2 ^ 64)
    (ht64 : t < 2 ^ 64) (htail : TailSurvives log i) :
    replay LogView.empty (payloads (journalled log.wal c i t).entries) =
      log.toLogView.replaySnapshot i t := by
  obtain ⟨lost, left, hsplit, hkept⟩ := htail
  rw [recordsSplit_eq h.stores] at hsplit
  cases hsplit
  have hsnap : replay LogView.empty
      (payloads (ReplicatedLogContents.journalled log.wal c i t).entries) =
      (replay LogView.empty (payloads (survivingRecords log.wal c))).replaySnapshot i t := by
    simp only [ReplicatedLogContents.journalled, Contents.entries, List.map_nil,
      List.flatten_nil, List.nil_append, payloads_append, replay_append]
    exact replayRecord_snapshot hi64 ht64
  rw [hsnap]
  by_cases hlost : lostRecords log.wal c = []
  · have hall := lost_surviving log.wal c
    rw [hlost, List.nil_append] at hall
    rw [hall, h.replayed]
  · have hkept := hkept.resolve_left hlost
    obtain ⟨base, hb, hj⟩ : ∃ base : LogView, base.Contiguous ∧
        Journal base (payloads (survivingRecords log.wal c)) log.toLogView := by
      rw [survivingRecords]
      split
      · exact ⟨_, h.contiguous, .start⟩
      · rename_i hover
        rcases h.origin with hnil | horigin
        · rw [lostRecords, if_neg hover] at hlost
          exact absurd hnil hlost
        · exact horigin
    exact hj.replaySnapshot hb h.contiguous t hkept

theorem Invariant.appended (h : Invariant log c) {term index : ℕ} {data : Bytes}
    (ht : term < 2 ^ 64) (hlast : log.lastIndex + 1 < 2 ^ 64)
    (hseq : log.wal.nextSequence + 1 < 2 ^ 64) (hlen : 17 + data.length < 2 ^ 32)
    (happ : log.append term data = (.ok index, log')) : ∃ c', Invariant log' c' := by
  have hfit : headerSize + (17 + data.length) ≤ log.wal.config.maxSegmentBytes := by
    by_contra hfit
    obtain ⟨w, hrej, _⟩ := append_rejected h.stores
      (encodeAppend ⟨term, log.lastIndex + 1, data⟩) (by simpa using hfit)
    simp only [RaftLog.append, hrej] at happ
    cases happ
  obtain ⟨log₁, happ₁, hview, hhealthy, _, hn⟩ :=
    append_spec h.toHealthy term data h.counter hlen hfit
  rw [happ] at happ₁
  cases happ₁
  have hreplay : replayRecord log.toLogView (encodeAppend ⟨term, log.lastIndex + 1, data⟩) =
      log.toLogView.push term data := by
    rw [replayRecord_append hlast ht, LogView.replayAppend_next]
  obtain ⟨hreplayed, horigin⟩ := h.grown (fun _ _ hj => hj.append ht hlast) hreplay
  rw [← hview] at hreplayed horigin
  refine ⟨_, hhealthy, hreplayed, horigin, ?_, ?_, ?_, by rw [hn]; exact hseq⟩
  · rw [hview, LogView.push_lastIndex]
    exact hlast
  · rw [hview]
    exact h.snapshotTerm
  · intro e he
    rw [hview] at he
    rcases List.mem_append.mp he with he | he
    · exact h.terms e he
    · obtain rfl := List.mem_singleton.mp he
      exact ht

theorem Invariant.truncated (h : Invariant log c) {i : ℕ}
    (hseq : log.wal.nextSequence + 1 < 2 ^ 64)
    (htr : log.truncateFrom i = (.ok (), log')) : ∃ c', Invariant log' c' := by
  by_cases hi : i ≤ log.snapshotIndex ∨ i > log.lastIndex
  · rw [truncateFrom_out log hi] at htr
    cases htr
    exact ⟨c, h⟩
  have hin : log.snapshotIndex < i ∧ i ≤ log.lastIndex := by
    rwa [not_or, not_le, not_lt] at hi
  have hi64 : i < 2 ^ 64 := hin.2.trans_lt h.lastIndex
  have hfit : headerSize + 9 ≤ log.wal.config.maxSegmentBytes := by
    by_contra hfit
    obtain ⟨w, hrej, _⟩ := append_rejected h.stores (encodeTruncate i) (by simpa using hfit)
    simp only [RaftLog.truncateFrom, if_neg hi, hrej] at htr
    cases htr
  obtain ⟨log₁, htr₁, hview, hhealthy, _, hn⟩ :=
    truncateFrom_spec h.toHealthy h.counter hfit hi
  rw [htr] at htr₁
  cases htr₁
  have hreplay : replayRecord log.toLogView (encodeTruncate i) = log.toLogView.cut i := by
    rw [replayRecord_truncate hi64, LogView.replayTruncate_inside _ hin.1]
  obtain ⟨hreplayed, horigin⟩ := h.grown (fun _ _ hj => hj.truncate hin.1 hin.2 hi64) hreplay
  rw [← hview] at hreplayed horigin
  refine ⟨_, hhealthy, hreplayed, horigin, ?_, ?_, ?_, by rw [hn]; exact hseq⟩
  · rw [hview]
    exact (LogView.cut_lastIndex_le _ _).trans_lt h.lastIndex
  · rw [hview]
    exact h.snapshotTerm
  · intro e he
    rw [hview] at he
    exact h.terms e (List.mem_of_mem_take he)

/-- Compaction and installation move the log to the same view and journal. -/
theorem Invariant.snapshotted (h : Invariant log c) {i t : ℕ} (hi64 : i < 2 ^ 64)
    (ht64 : t < 2 ^ 64) (hi : log.snapshotIndex < i) (htail : TailSurvives log i)
    (hview : log'.toLogView = log.toLogView.replaySnapshot i t)
    (hhealthy : Healthy log' (ReplicatedLogContents.journalled log.wal c i t))
    (hcounter : log'.wal.nextSequence < 2 ^ 64) : ∃ c', Invariant log' c' := by
  refine ⟨_, hhealthy, ?_, Or.inl rfl, ?_, ?_, ?_, hcounter⟩
  · rw [h.journalled hi64 ht64 htail, hview]
  · have hlast := h.lastIndex
    rw [hview]
    simp only [LogView.lastIndex, LogView.replaySnapshot] at hlast ⊢
    rw [h.contiguous.filter_above (Nat.le_of_lt hi), List.length_drop]
    omega
  · rw [hview]
    exact ht64
  · intro e he
    rw [hview] at he
    exact h.terms e (List.mem_of_mem_filter he)

theorem journalSnapshot_ok_fits {w w' : Wal} (h : Stores w c) {i t : ℕ}
    (hj : journalSnapshot w i t = (.ok (), w')) :
    snapshotRecordSize ≤ w.config.maxSegmentBytes := by
  by_contra hfit
  obtain ⟨v, hrej, _⟩ := append_rejected h (encodeSnapshot i t)
    (by simpa [snapshotRecordSize] using hfit)
  simp only [journalSnapshot, hrej] at hj
  cases hj

theorem Invariant.compacted (h : Invariant log c) {i t : ℕ}
    (hseq : log.wal.nextSequence + 1 < 2 ^ 64) (hi : log.snapshotIndex < i)
    (hlast : i ≤ log.lastIndex) (ht : log.termAt i = some t) (htail : TailSurvives log i)
    (hcompact : log.compact i t = (.ok (), log')) : ∃ c', Invariant log' c' := by
  have hfit : snapshotRecordSize ≤ log.wal.config.maxSegmentBytes := by
    have hok := hcompact
    rw [RaftLog.compact, if_neg (Nat.not_le.mpr hi)] at hok
    split at hok
    · cases hok
    · rename_i hj
      exact journalSnapshot_ok_fits h.stores hj
  have ht64 : t < 2 ^ 64 := by
    rw [LogView.termAt, if_neg (by omega), if_neg (by omega), if_neg (by omega)] at ht
    obtain ⟨e, he, rfl⟩ := Option.map_eq_some_iff.mp ht
    exact h.terms e (List.mem_of_getElem? he)
  obtain ⟨log₁, hok, hview, hhealthy, _, hn⟩ :=
    compact_spec h.toHealthy (t := t) h.counter hfit hi
  rw [hcompact] at hok
  cases hok
  exact h.snapshotted (hlast.trans_lt h.lastIndex) ht64 hi htail hview hhealthy
    (by rw [hn]; exact hseq)

theorem Invariant.installed (h : Invariant log c) {i t : ℕ}
    (hseq : log.wal.nextSequence + 1 < 2 ^ 64) (hi64 : i < 2 ^ 64) (ht64 : t < 2 ^ 64)
    (htail : log.snapshotIndex < i → TailSurvives log i)
    (hinstall : log.installSnapshot i t = (.ok (), log')) : ∃ c', Invariant log' c' := by
  by_cases hi : i ≤ log.snapshotIndex
  · rw [RaftLog.installSnapshot, if_pos hi] at hinstall
    cases hinstall
    exact ⟨c, h⟩
  have hlt := Nat.lt_of_not_le hi
  have hfit : snapshotRecordSize ≤ log.wal.config.maxSegmentBytes := by
    have hok := hinstall
    rw [RaftLog.installSnapshot, if_neg hi] at hok
    split at hok
    · cases hok
    · rename_i hj
      exact journalSnapshot_ok_fits h.stores hj
  obtain ⟨log₁, hok, hview, hhealthy, _, hn⟩ :=
    installSnapshot_spec h.toHealthy (t := t) h.counter hfit hlt
  rw [hinstall] at hok
  cases hok
  exact h.snapshotted hi64 ht64 hlt (htail hlt) hview hhealthy (by rw [hn]; exact hseq)

theorem Invariant.reopened (h : Invariant log c)
    (hopen : RaftLog.open log.wal.config log.wal.dir = .ok log') : Invariant log' c := by
  obtain ⟨log₁, hopen₁, hview, hst, _, hn⟩ := open_log_spec h.stores
  rw [hopen] at hopen₁
  cases hopen₁
  have hview : log'.toLogView = log.toLogView := hview.trans h.replayed
  refine ⟨⟨hst, hview ▸ h.contiguous⟩, hview ▸ h.replayed, hview ▸ h.origin, ?_, ?_, ?_,
    hn.trans_lt h.counter⟩
  · rw [hview]
    exact h.lastIndex
  · rw [hview]
    exact h.snapshotTerm
  · rw [hview]
    exact h.terms

theorem Invariant.step (h : Invariant log c) {e : LogEvent} (hok : KeepsTail log e)
    (hstep : Step log e log') : ∃ c', Invariant log' c' := by
  cases hstep with
  | append ht hlast hseq happ => exact h.appended ht hlast hseq hok happ
  | truncate hseq htr => exact h.truncated hseq htr
  | compact hseq hi hlast ht hcompact => exact h.compacted hseq hi hlast ht hok hcompact
  | install hseq hi64 ht64 hinstall => exact h.installed hseq hi64 ht64 hok hinstall
  | reopen hopen => exact ⟨c, h.reopened hopen⟩

theorem LogRun.invariant {config : WalConfig} {es : List LogEvent}
    (run : LogRun KeepsTail config es log) : ∃ c, Invariant log c := by
  induction run with
  | start hopen =>
    obtain ⟨log₁, hopen₁, hview, hhealthy, _, hn⟩ := open_log_empty config
    rw [hopen] at hopen₁
    cases hopen₁
    refine ⟨_, hhealthy, ?_, Or.inl rfl, ?_, ?_, ?_, by rw [hn]; decide⟩
    · rw [hview]
      rfl
    · rw [hview]
      decide
    · rw [hview]
      decide
    · rw [hview]
      simp [LogView.empty]
  | step _ hok hstep ih =>
    obtain ⟨c, h⟩ := ih
    exact h.step hok hstep

theorem Invariant.recovers (h : Invariant log c) : Recovers log := by
  obtain ⟨log', hopen, hview, _⟩ := open_log_spec h.stores
  exact ⟨log', hopen, hview.trans h.replayed⟩

/-- Over every run whose compactions keep the retained tail on disk, reopening the log
gives back the live one. -/
theorem reopened_log_is_live_log {config : WalConfig} {es : List LogEvent}
    (run : LogRun KeepsTail config es log) : Recovers log := by
  obtain ⟨c, h⟩ := run.invariant
  exact h.recovers

/-- A fresh log with two entries of one byte. -/
theorem two_entries (ok : RaftLog → LogEvent → Prop) (config : WalConfig)
    (hok : ∀ log b, ok log (.appended 1 [b])) (hfit : 34 ≤ config.maxSegmentBytes) :
    ∃ log₁ c₁ log₂, LogRun ok config [.appended 1 [7], .appended 1 [8]] log₂ ∧
      log₂.toLogView = ⟨[⟨1, 1, [7]⟩, ⟨1, 2, [8]⟩], 0, 0⟩ ∧
      Healthy log₂ (c₁.grown log₁.wal (encodeAppend ⟨1, 2, [8]⟩)) ∧
      log₂.wal.config = config ∧ log₂.wal.nextSequence = 3 ∧ Healthy log₁ c₁ ∧
      log₁.wal.config = config ∧ c₁.sealed = [] ∧ (encodeAll c₁.active).length = 34 := by
  have h16 : headerSize = 16 := rfl
  obtain ⟨log₀, hopen, hview₀, h₀, hcfg₀, hn₀⟩ := open_log_empty config
  obtain ⟨log₁, happ₁, hview₁, h₁, hcfg₁, hn₁⟩ := append_spec h₀ 1 [7]
    (by rw [hn₀]; decide) (by decide) (by rw [hcfg₀]; simpa [h16] using hfit)
  obtain ⟨log₂, happ₂, hview₂, h₂, hcfg₂, hn₂⟩ := append_spec h₁ 1 [8]
    (by rw [hn₁, hn₀]; decide) (by decide) (by rw [hcfg₁, hcfg₀]; simpa [h16] using hfit)
  have hlast₁ : log₁.lastIndex = 1 := by
    rw [hview₁, hview₀]
    rfl
  rw [hn₀] at hn₁
  rw [hn₁] at hn₂
  rw [hlast₁] at h₂
  have hgrown : Contents.grown ⟨[], []⟩ log₀.wal (encodeAppend ⟨1, log₀.lastIndex + 1, [7]⟩) =
      ⟨[], [⟨1, encodeAppend ⟨1, log₀.lastIndex + 1, [7]⟩⟩]⟩ := by
    rw [Contents.grown, h₀.stores.toLayout.wouldOverflow, hcfg₀, if_neg, hn₀]
    · rfl
    · simp [h16]
      omega
  rw [hgrown] at h₁ h₂
  refine ⟨log₁, _, log₂, ?_, ?_, h₂, hcfg₂.trans (hcfg₁.trans hcfg₀), hn₂, h₁,
    hcfg₁.trans hcfg₀, rfl, by simp [Entry.encoded, h16]⟩
  · exact ((LogRun.start hopen).step (hok _ _)
      (.append (by decide) (by rw [hview₀]; decide) (by rw [hn₀]; decide) happ₁)).step
      (hok _ _) (.append (by decide) (by rw [hlast₁]; decide) (by rw [hn₁]; decide) happ₂)
  · rw [hview₂, hview₁, hview₀]
    rfl

end

/-- Two entries and a compaction at the first, all in one segment. -/
theorem reopened_log_is_live_log_one_segment :
    ∃ log, @LogRun ieee (@KeepsTail ieee) ⟨4096, true⟩
        [.appended 1 [7], .appended 1 [8], .compacted 1 1] log ∧ @Recovers ieee log := by
  let _ : Crc32 := ieee
  obtain ⟨log₁, c₁, log₂, run, hview, h₂, hcfg, hn, h₁, hcfg₁, hsealed, hlen⟩ :=
    two_entries KeepsTail ⟨4096, true⟩ (fun _ _ => by simp [KeepsTail]) (by decide)
  have hgrown : c₁.grown log₁.wal (encodeAppend ⟨1, 2, [8]⟩) =
      c₁.appended ⟨log₁.wal.nextSequence, encodeAppend ⟨1, 2, [8]⟩⟩ := by
    rw [Contents.grown, h₁.stores.toLayout.wouldOverflow, hcfg₁, hlen, if_neg (by decide)]
  rw [hgrown] at h₂
  have hover : log₂.wal.active.wouldOverflow snapshotRecordSize = false := by
    rw [h₂.stores.toLayout.wouldOverflow, hcfg]
    simp [Contents.appended, hlen, snapshotRecordSize, headerSize, Entry.encoded]
  have htail : TailSurvives log₂ 1 := by
    refine ⟨_, _, recordsSplit_eq h₂.stores, Or.inl ?_⟩
    simp [lostRecords, hover, Contents.appended, hsealed]
  obtain ⟨log₃, hcompact, _⟩ := compact_spec h₂ (i := 1) (t := 1) (by rw [hn]; decide)
    (by rw [hcfg]; decide) (by rw [hview]; decide)
  have run₃ := run.step (e := .compacted 1 1) htail
    (.compact (by rw [hn]; decide) (by rw [hview]; decide) (by rw [hview]; decide)
      (by rw [hview]; decide) hcompact)
  exact ⟨log₃, run₃, reopened_log_is_live_log run₃⟩

/-- Segments of 40 bytes hold one record each: compacting two entries at the first
deletes the record of the second, which the live log retains. -/
theorem reopened_log_loses_tail :
    ∃ log, @LogRun ieee (fun _ _ => True) ⟨40, true⟩
        [.appended 1 [7], .appended 1 [8], .compacted 1 1] log ∧ ¬ @Recovers ieee log := by
  let _ : Crc32 := ieee
  obtain ⟨log₁, c₁, log₂, run, hview, h₂, hcfg, hn, _⟩ :=
    two_entries (fun _ _ => True) ⟨40, true⟩ (fun _ _ => trivial) (by decide)
  obtain ⟨front, hactive⟩ := grown_active c₁ log₁.wal (encodeAppend ⟨1, 2, [8]⟩)
  have hover : log₂.wal.active.wouldOverflow snapshotRecordSize = true := by
    rw [h₂.stores.toLayout.wouldOverflow, hcfg, hactive]
    simp [snapshotRecordSize, headerSize, Entry.encoded]
  obtain ⟨log₃, hcompact, hview₃, h₃, hcfg₃, _⟩ := compact_spec h₂ (i := 1) (t := 1)
    (by rw [hn]; decide) (by rw [hcfg]; decide) (by rw [hview]; decide)
  have run₃ := run.step (e := .compacted 1 1) trivial
    (.compact (by rw [hn]; decide) (by rw [hview]; decide) (by rw [hview]; decide)
      (by rw [hview]; decide) hcompact)
  refine ⟨log₃, run₃, fun hrec => ?_⟩
  obtain ⟨log₄, hopen, hsame⟩ := hrec
  obtain ⟨log₅, hopen₅, hview₅, _⟩ := open_log_spec h₃.stores
  rw [hopen] at hopen₅
  cases hopen₅
  -- only the SNAPSHOT record is left to replay
  have hreplayed : log₄.toLogView = ⟨[], 1, 1⟩ := by
    rw [hview₅]
    simp only [journalled, survivingRecords, if_pos hover, Contents.entries, List.map_nil,
      List.flatten_nil, List.nil_append, List.map_cons]
    exact replayRecord_snapshot (by decide) (by decide)
  rw [hview₃, hview, hreplayed] at hsame
  exact absurd hsame (by decide)

end ReplicatedLogRecovery
