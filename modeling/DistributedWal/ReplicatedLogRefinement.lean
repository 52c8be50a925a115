import DistributedWal.CompactedLog
import DistributedWal.LabelledRuns
import DistributedWal.RaftNodeHandlers
import DistributedWal.ReplicatedLogArithmetic

/-! # The replicated log refines a log with a compaction point

Every sequence of calls on a fresh log whose WAL calls succeed is followed step by step by the
abstract log, of which both `compact` and `install_snapshot` move the base. The calls return
Ok and stay in `u64` as long as the indices of the abstract log leave room for it.
-/
namespace ReplicatedLogRefinement

open LittleEndianCodec WalEntry WalSegment WalEngine WalContents ReplicatedLog
open ReplicatedLogContents ReplicatedLogArithmetic RaftNode RaftNodeHandlers CompactedLog
open LabelledRuns

/-- The calls of the write path. -/
inductive LogCall where
  | append (term : ℕ) (data : Bytes)
  | truncateFrom (i : ℕ)
  | compact (i t : ℕ)
  | installSnapshot (i t : ℕ)

def LogCall.operation : LogCall → Operation ℕ Bytes
  | .append term data => .append term data
  | .truncateFrom i => .truncateFrom i
  | .compact i t => .moveBase i t
  | .installSnapshot i t => .moveBase i t

def abstractLog (calls : List LogCall) : AbstractLog ℕ Bytes :=
  calls.foldl (fun a call => a.apply call.operation) (AbstractLog.empty 0)

/-- The indices are `u64` values at every moment, the one behind the base included. -/
def Room (calls : List LogCall) : Prop :=
  ∀ pre, pre <+: calls →
    (abstractLog pre).base + 1 < 2 ^ 64 ∧ (abstractLog pre).last < 2 ^ 64

def parts (e : LogEntry) : ℕ × ℕ × Bytes := (e.index, e.term, e.data)

theorem parts_injective : Function.Injective parts := by
  rintro ⟨t, i, d⟩ ⟨t', i', d'⟩ h
  cases h
  rfl

/-- The in-memory part stands for the abstract log. -/
structure Refines (v : LogView) (a : AbstractLog ℕ Bytes) : Prop where
  base : v.snapshotIndex = a.base
  baseTerm : v.snapshotTerm = a.baseTerm
  entries : v.entries.map parts = a.numbered

section

variable {v : LogView} {a : AbstractLog ℕ Bytes}

theorem Refines.empty : Refines LogView.empty (AbstractLog.empty 0) := ⟨rfl, rfl, rfl⟩

theorem Refines.getElem? (h : Refines v a) (k : ℕ) :
    v.entries[k]?.map parts = a.items[k]?.map (fun x => (a.base + 1 + k, x)) := by
  rw [← numbered_getElem?, ← h.entries, List.getElem?_map]

theorem Refines.length (h : Refines v a) : v.entries.length = a.items.length := by
  rw [← numbered_length, ← h.entries, List.length_map]

theorem Refines.contiguous (h : Refines v a) : v.Contiguous := by
  intro k e he
  have hk := h.getElem? k
  rw [he] at hk
  obtain ⟨x, _, hx⟩ := Option.map_eq_some_iff.mp hk.symm
  have hindex : e.index = a.base + 1 + k := congrArg Prod.fst hx.symm
  rw [hindex, h.base]

theorem Refines.lastIndex (h : Refines v a) : v.lastIndex = a.last := by
  rw [LogView.lastIndex, AbstractLog.last, h.base, h.length]

theorem Refines.term_getElem? (h : Refines v a) (k : ℕ) :
    v.entries[k]?.map LogEntry.term = a.items[k]?.map Prod.fst := by
  have hk := congrArg (Option.map (fun x => x.2.1)) (h.getElem? k)
  rw [Option.map_map, Option.map_map] at hk
  exact hk

theorem Refines.lastTerm (h : Refines v a) : v.lastTerm = a.lastTerm := by
  have hlast := h.term_getElem? (v.entries.length - 1)
  rw [← List.getLast?_eq_getElem?, h.length, ← List.getLast?_eq_getElem?] at hlast
  rw [LogView.lastTerm, AbstractLog.lastTerm, ← hlast, h.baseTerm.symm]
  cases v.entries.getLast? <;> rfl

theorem Refines.termAt (h : Refines v a) (i : ℕ) : v.termAt i = a.termAt i := by
  rw [LogView.termAt, AbstractLog.termAt, h.base, h.baseTerm]
  by_cases hzero : i = 0
  · rw [if_pos hzero, if_pos (Or.inl hzero)]
  rw [if_neg hzero]
  by_cases hbase : i = a.base
  · rw [if_pos hbase, if_neg (by omega), if_pos hbase]
  rw [if_neg hbase]
  by_cases hbelow : i < a.base
  · rw [if_pos hbelow, if_pos (Or.inr hbelow)]
  · rw [if_neg hbelow, if_neg (by omega), if_neg hbase, h.term_getElem?]

theorem Refines.entriesFrom (h : Refines v a) (k : ℕ) :
    (v.entriesFrom k).map parts = a.entriesFrom k := by
  have hdrop : v.entriesFrom k = v.entries.drop (k - v.snapshotIndex - 1) := by
    rw [LogView.entriesFrom]
    split
    · rename_i hout
      symm
      apply List.drop_eq_nil_of_le
      rw [LogView.lastIndex] at hout
      omega
    · congr 1
      omega
  rw [hdrop, List.map_drop, h.entries, h.base, entriesFrom_eq]

theorem Refines.push (h : Refines v a) (term : ℕ) (data : Bytes) :
    Refines (v.push term data) (a.apply (.append term data)) := by
  refine ⟨h.base, h.baseTerm, ?_⟩
  rw [numbered_append, ← h.entries, ← h.lastIndex, LogView.push, List.map_append]
  rfl

theorem Refines.cut (h : Refines v a) {i : ℕ} (hlow : v.snapshotIndex < i)
    (hhigh : i ≤ v.lastIndex) : Refines (v.cut i) (a.apply (.truncateFrom i)) := by
  rw [h.base] at hlow
  rw [h.lastIndex] at hhigh
  rw [AbstractLog.apply, if_pos ⟨hlow, hhigh⟩]
  refine ⟨h.base, h.baseTerm, ?_⟩
  rw [numbered_take, ← h.entries, LogView.cut, List.map_take, h.base]

theorem Refines.above (h : Refines v a) {i : ℕ} (hi : v.snapshotIndex < i) (t : ℕ) :
    Refines (v.replaySnapshot i t) (a.apply (.moveBase i t)) := by
  have hfilter := h.contiguous.filter_above (Nat.le_of_lt hi)
  rw [h.base] at hi hfilter
  rw [AbstractLog.apply, if_pos hi]
  refine ⟨rfl, rfl, ?_⟩
  rw [numbered_drop (Nat.le_of_lt hi), ← h.entries, LogView.replaySnapshot, hfilter,
    List.map_drop]

/-- A truncation or a base that the call leaves alone is left alone by the operation. -/
theorem Refines.apply_outside (h : Refines v a) {i : ℕ}
    (hi : i ≤ v.snapshotIndex ∨ i > v.lastIndex) : a.apply (.truncateFrom i) = a := by
  rw [h.base, h.lastIndex] at hi
  rw [AbstractLog.apply, if_neg (by omega)]

theorem Refines.apply_behind (h : Refines v a) {i : ℕ} (hi : i ≤ v.snapshotIndex) (t : ℕ) :
    a.apply (.moveBase i t) = a := by
  rw [h.base] at hi
  rw [AbstractLog.apply, if_neg (Nat.not_lt.mpr hi)]

end

theorem decideVote_same_log {m m' : Node} (hps : m'.ps = m.ps)
    (hindex : m'.log.lastIndex = m.log.lastIndex) (hterm : m'.log.lastTerm = m.log.lastTerm)
    (req : RequestVoteRequest) : (decideVote m' req).1 = (decideVote m req).1 := by
  have hok : m'.logOk req = m.logOk req := by
    rw [Node.logOk, Node.logOk, hindex, hterm]
  have hvoted : m'.alreadyVotedForOther req.candidateId =
      m.alreadyVotedForOther req.candidateId := by
    rw [Node.alreadyVotedForOther, Node.alreadyVotedForOther, hps]
  rw [decideVote, decideVote, hok, hvoted, hps]
  by_cases hstale : req.term < m.ps.currentTerm
  · rw [if_pos hstale, if_pos hstale]
  rw [if_neg hstale, if_neg hstale]
  by_cases hother : m.alreadyVotedForOther req.candidateId = true
  · rw [if_pos hother, if_pos hother]
  rw [if_neg hother, if_neg hother]
  by_cases hlog : m.logOk req = true
  · rw [if_neg (not_not.mpr hlog), if_neg (not_not.mpr hlog)]
    simp only [Node.recordVote, Node.mark, hps]
  · rw [if_pos hlog, if_pos hlog]

/-- The vote depends on the log through its last index and term. -/
theorem requestVote_same_log {n n' : Node} (hps : n'.ps = n.ps)
    (hindex : n'.log.lastIndex = n.log.lastIndex) (hterm : n'.log.lastTerm = n.log.lastTerm)
    (req : RequestVoteRequest) : (n'.onRequestVote req).1 = (n.onRequestVote req).1 := by
  rw [onRequestVote_eq, onRequestVote_eq]
  have hseen : ∀ m : Node, (observeTerm m req.term).ps =
      (if req.term > m.ps.currentTerm then m.ps.advanceTerm req.term else m.ps) ∧
      (observeTerm m req.term).log = m.log := by
    intro m
    rw [observeTerm]
    split <;> exact ⟨rfl, rfl⟩
  apply decideVote_same_log
  · rw [(hseen n).1, (hseen n').1, hps]
  · rw [(hseen n).2, (hseen n').2, hindex]
  · rw [(hseen n).2, (hseen n').2, hterm]

theorem abstractLog_snoc (calls : List LogCall) (call : LogCall) :
    abstractLog (calls ++ [call]) = (abstractLog calls).apply call.operation :=
  List.foldl_append

theorem Room.front {calls : List LogCall} {call : LogCall} (h : Room (calls ++ [call])) :
    Room calls :=
  fun pre hpre => h pre (hpre.trans (List.prefix_append _ _))

theorem Room.empty : Room [] := by
  intro pre hpre
  rw [List.prefix_nil.mp hpre]
  decide

theorem Room.snoc {calls : List LogCall} (h : Room calls) (call : LogCall)
    (hnext : (abstractLog (calls ++ [call])).base + 1 < 2 ^ 64 ∧
      (abstractLog (calls ++ [call])).last < 2 ^ 64) : Room (calls ++ [call]) := by
  intro pre hpre
  rcases List.prefix_concat_iff.mp hpre with rfl | hfront
  · exact hnext
  · exact h pre hfront

theorem Room.now {calls : List LogCall} (h : Room calls) :
    (abstractLog calls).base + 1 < 2 ^ 64 ∧ (abstractLog calls).last < 2 ^ 64 :=
  h calls (List.prefix_refl _)

section

variable {log : RaftLog} {a : AbstractLog ℕ Bytes} {i t : ℕ}

/-- A compaction up to a held entry, at its own term, is not seen above it. -/
theorem compact_invisible {log' : RaftLog} (h : Refines log.toLogView a)
    (h' : Refines log'.toLogView (a.apply (.moveBase i t))) (hi : log.snapshotIndex < i)
    (hlast : i ≤ log.lastIndex) (ht : log.termAt i = some t) :
    log'.lastIndex = log.lastIndex ∧ log'.lastTerm = log.lastTerm ∧
      (∀ j, i ≤ j → log'.termAt j = log.termAt j) ∧
      ∀ k, i < k → log'.entriesFrom k = log.entriesFrom k := by
  have hbase : a.base < i := h.base ▸ hi
  rw [h.termAt] at ht
  rw [h.lastIndex] at hlast
  refine ⟨?_, ?_, ?_, ?_⟩
  · rw [h'.lastIndex, h.lastIndex, moveBase_last hbase hlast]
  · rw [h'.lastTerm, h.lastTerm, moveBase_lastTerm hbase hlast ht]
  · intro j hj
    rw [h'.termAt, h.termAt, moveBase_termAt hbase ht hj]
  · intro k hk
    apply List.map_injective_iff.mpr parts_injective
    rw [h'.entriesFrom, h.entriesFrom, moveBase_entriesFrom hbase hk]

theorem snapshot_beyond {log' : RaftLog} (h : Refines log.toLogView a)
    (h' : Refines log'.toLogView (a.apply (.moveBase i t))) (hi : log.lastIndex < i) :
    log'.lastIndex = i ∧ log'.lastTerm = t := by
  rw [h.lastIndex] at hi
  rw [h'.lastIndex, h'.lastTerm]
  exact moveBase_beyond hi

end

variable [Crc32]

/-- The WAL appends a record. -/
def Accepts (w : Wal) (record : Bytes) : Prop :=
  ∃ sequence w', w.append record = (.ok sequence, w')

/-- The WAL appends a snapshot's record and frees the segments before it. -/
def Journals (w : Wal) (i t : ℕ) : Prop :=
  ∃ sequence w' w'', w.append (encodeSnapshot i t) = (.ok sequence, w') ∧
    (w'.checkpoint sequence).truncateBefore sequence = (.ok (), w'')

/-- The WAL calls that a call makes succeed. -/
def WalSucceeds (log : RaftLog) : LogCall → Prop
  | .append term data => Accepts log.wal (encodeAppend ⟨term, log.lastIndex + 1, data⟩)
  | .truncateFrom i =>
    log.snapshotIndex < i → i ≤ log.lastIndex → Accepts log.wal (encodeTruncate i)
  | .compact i t => log.snapshotIndex < i → Journals log.wal i t
  | .installSnapshot i t => log.snapshotIndex < i → Journals log.wal i t

/-- The log after a call of which no operation overflows, whatever it returns. -/
inductive Performs (log : RaftLog) : LogCall → RaftLog → Prop where
  | append {term : ℕ} {data : Bytes} {result : Except WalError ℕ} {log' : RaftLog} :
      appendChecked log term data = some (result, log') →
      Performs log (.append term data) log'
  | truncateFrom {i : ℕ} {result : Except WalError Unit} {log' : RaftLog} :
      truncateFromChecked log i = some (result, log') → Performs log (.truncateFrom i) log'
  | compact {i t : ℕ} {result : Except WalError Unit} {log' : RaftLog} :
      compactChecked log i t = some (result, log') → Performs log (.compact i t) log'
  | installSnapshot {i t : ℕ} {result : Except WalError Unit} {log' : RaftLog} :
      log.installSnapshot i t = (result, log') → Performs log (.installSnapshot i t) log'

def Call (log : RaftLog) (call : LogCall) (log' : RaftLog) : Prop :=
  WalSucceeds log call ∧ Performs log call log'

/-- The call returns Ok, an append with the index of its entry. -/
def ReturnsOk (log : RaftLog) (call : LogCall) (log' : RaftLog) : Prop :=
  match call with
  | .append term data => appendChecked log term data = some (.ok (log.lastIndex + 1), log')
  | .truncateFrom i => truncateFromChecked log i = some (.ok (), log')
  | .compact i t => compactChecked log i t = some (.ok (), log')
  | .installSnapshot i t => log.installSnapshot i t = (.ok (), log')

section

variable {log log' log'' : RaftLog} {call : LogCall} {a : AbstractLog ℕ Bytes} {i t : ℕ}

theorem Performs.unique (h : Performs log call log') (h' : ReturnsOk log call log'') :
    log' = log'' := by
  cases h with
  | installSnapshot h =>
    rw [ReturnsOk, h] at h'
    exact (Prod.mk.inj h').2
  | _ h =>
    rw [ReturnsOk, h] at h'
    exact (Prod.mk.inj (Option.some.inj h')).2

theorem Journals.snapshot {w : Wal} (h : Journals w i t) :
    ∃ w', journalSnapshot w i t = (.ok (), w') := by
  obtain ⟨sequence, w', w'', happ, htr⟩ := h
  exact ⟨w'', by rw [journalSnapshot, happ]; exact htr⟩

theorem journals_of_snapshot {w w' : Wal} (h : journalSnapshot w i t = (.ok (), w')) :
    Journals w i t := by
  rw [journalSnapshot] at h
  split at h
  · cases h
  · rename_i sequence w₁ happ
    exact ⟨sequence, w₁, w', happ, h⟩

/-- A snapshot call moves the base when it is ahead and does nothing otherwise. -/
theorem Refines.compact (h : Refines log.toLogView a) (hlast : log.lastIndex < 2 ^ 64)
    (hwal : WalSucceeds log (.compact i t)) :
    ∃ log', ReturnsOk log (.compact i t) log' ∧
      Refines log'.toLogView (a.apply (.moveBase i t)) := by
  simp only [ReturnsOk, compactChecked_eq hlast, RaftLog.compact]
  by_cases hlow : i ≤ log.snapshotIndex
  · rw [if_pos hlow, h.apply_behind hlow]
    exact ⟨log, rfl, h⟩
  · obtain ⟨w, hw⟩ := (hwal (Nat.lt_of_not_le hlow)).snapshot
    rw [if_neg hlow, hw]
    refine ⟨_, rfl, ?_⟩
    rw [h.contiguous.compacted (Nat.lt_of_not_le hlow)]
    exact h.above (Nat.lt_of_not_le hlow) t

theorem Refines.installSnapshot (h : Refines log.toLogView a)
    (hwal : WalSucceeds log (.installSnapshot i t)) :
    ∃ log', ReturnsOk log (.installSnapshot i t) log' ∧
      Refines log'.toLogView (a.apply (.moveBase i t)) := by
  simp only [ReturnsOk, RaftLog.installSnapshot]
  by_cases hlow : i ≤ log.snapshotIndex
  · rw [if_pos hlow, h.apply_behind hlow]
    exact ⟨log, rfl, h⟩
  · obtain ⟨w, hw⟩ := (hwal (Nat.lt_of_not_le hlow)).snapshot
    rw [if_neg hlow, hw]
    exact ⟨_, rfl, h.above (Nat.lt_of_not_le hlow) t⟩

theorem Refines.append (h : Refines log.toLogView a) {term : ℕ} {data : Bytes}
    (hlast : log.lastIndex + 1 < 2 ^ 64) (hwal : WalSucceeds log (.append term data)) :
    ∃ log', ReturnsOk log (.append term data) log' ∧
      Refines log'.toLogView (a.apply (.append term data)) := by
  obtain ⟨sequence, w, hw⟩ := hwal
  simp only [ReturnsOk, appendChecked_eq hlast, RaftLog.append, hw]
  exact ⟨_, rfl, h.push term data⟩

theorem Refines.truncateFrom (h : Refines log.toLogView a) (hlast : log.lastIndex < 2 ^ 64)
    (hwal : WalSucceeds log (.truncateFrom i)) :
    ∃ log', ReturnsOk log (.truncateFrom i) log' ∧
      Refines log'.toLogView (a.apply (.truncateFrom i)) := by
  simp only [ReturnsOk, truncateFromChecked_eq hlast, RaftLog.truncateFrom]
  by_cases hout : i ≤ log.snapshotIndex ∨ i > log.lastIndex
  · rw [if_pos hout, h.apply_outside hout]
    exact ⟨log, rfl, h⟩
  · obtain ⟨hlow, hhigh⟩ := not_or.mp hout
    obtain ⟨sequence, w, hw⟩ := hwal (Nat.lt_of_not_le hlow) (Nat.le_of_not_lt hhigh)
    rw [if_neg hout, hw]
    exact ⟨_, rfl, h.cut (Nat.lt_of_not_le hlow) (Nat.le_of_not_lt hhigh)⟩

/-- Every call with room in `u64` returns Ok and does what the operation does. -/
theorem Refines.returnsOk (h : Refines log.toLogView a) (hlast : a.last < 2 ^ 64)
    (hnext : (a.apply call.operation).last < 2 ^ 64) (hwal : WalSucceeds log call) :
    ∃ log', ReturnsOk log call log' ∧ Refines log'.toLogView (a.apply call.operation) := by
  rw [← h.lastIndex] at hlast
  cases call with
  | append term data =>
    have hpush := (h.push term data).lastIndex
    rw [LogView.push_lastIndex] at hpush
    exact h.append (hpush ▸ hnext) hwal
  | truncateFrom i => exact h.truncateFrom hlast hwal
  | compact i t => exact h.compact hlast hwal
  | installSnapshot i t => exact h.installSnapshot hwal

/-- The log after every sequence of calls with room stands for the abstract log after it. -/
theorem Refines.run {log₀ : RaftLog} {calls : List LogCall}
    (hfresh : log₀.toLogView = LogView.empty) (hsteps : Steps Call log₀ calls log)
    (hroom : Room calls) : Refines log.toLogView (abstractLog calls) := by
  revert hroom
  apply hsteps.invariant (fun calls log => Room calls → Refines log.toLogView (abstractLog calls))
  · intro _
    rw [hfresh]
    exact .empty
  · rintro calls log call log' _ ih ⟨hwal, hperforms⟩ hroom
    have hnext := hroom.now.2
    rw [abstractLog_snoc] at hnext ⊢
    obtain ⟨log'', hok, h'⟩ := (ih hroom.front).returnsOk hroom.front.now.2 hnext hwal
    rw [hperforms.unique hok]
    exact h'

end

/-- The node's compaction is that of its log, and its votes stay the same. -/
theorem compactLog_votes {n : Node} {log' : RaftLog} {i t : ℕ}
    (hc : n.log.compact i t = (.ok (), log')) (hindex : log'.lastIndex = n.log.lastIndex)
    (hterm : log'.lastTerm = n.log.lastTerm) :
    (n.compactLog i t).1 = .ok () ∧
      ∀ req, ((n.compactLog i t).2.onRequestVote req).1 = (n.onRequestVote req).1 := by
  have hps : (n.compactLog i t).2.ps = n.ps := rfl
  have hlog : (n.compactLog i t).2.log = log' := by
    rw [Node.compactLog, hc]
    rfl
  refine ⟨by rw [Node.compactLog, hc], requestVote_same_log hps ?_ ?_⟩
  · rw [hlog]
    exact hindex
  · rw [hlog]
    exact hterm

/-- Over every sequence of calls on a fresh log whose WAL calls succeed and whose indices leave
room in `u64`, the entries stay contiguous, the read path agrees with the abstract log, and
the next call returns Ok. A snapshot beyond the end becomes the end. A compaction up to a held
entry, at that entry's term, changes nothing above it, nor any vote. -/
theorem log_refines_abstract {config : WalConfig} {log₀ log : RaftLog}
    {calls : List LogCall} (hopen : RaftLog.open config Dir.empty = .ok log₀)
    (hsteps : Steps Call log₀ calls log) (hroom : Room calls) :
    log.toLogView.Contiguous ∧
      lastIndexChecked log.toLogView = some (abstractLog calls).last ∧
      log.lastTerm = (abstractLog calls).lastTerm ∧
      (∀ i, termAtChecked log.toLogView i = some ((abstractLog calls).termAt i)) ∧
      (∀ k, (entriesFromChecked log.toLogView k).map (List.map parts) =
        some ((abstractLog calls).entriesFrom k)) ∧
      (∀ call, WalSucceeds log call → Room (calls ++ [call]) →
        ∃ log', ReturnsOk log call log') ∧
      (∀ i t, log.lastIndex < i → Journals log.wal i t →
        ∀ call ∈ [LogCall.compact i t, LogCall.installSnapshot i t],
          ∃ log', ReturnsOk log call log' ∧ log'.lastIndex = i ∧ log'.lastTerm = t) ∧
      ∀ i t, log.snapshotIndex < i → i ≤ log.lastIndex → log.termAt i = some t →
        Journals log.wal i t → ∃ log', ReturnsOk log (.compact i t) log' ∧
          log'.lastIndex = log.lastIndex ∧ log'.lastTerm = log.lastTerm ∧
          (∀ j, i ≤ j → log'.termAt j = log.termAt j) ∧
          (∀ k, i < k → log'.entriesFrom k = log.entriesFrom k) ∧
          ∀ n : Node, n.log = log → (n.compactLog i t).1 = .ok () ∧
            ∀ req, ((n.compactLog i t).2.onRequestVote req).1 = (n.onRequestVote req).1 := by
  obtain ⟨log₁, hopen', hview, _⟩ := open_log_empty config
  rw [hopen'] at hopen
  cases hopen
  have h := Refines.run hview hsteps hroom
  obtain ⟨hbase, hlast⟩ := hroom.now
  have hlast' : log.lastIndex < 2 ^ 64 := h.lastIndex ▸ hlast
  refine ⟨h.contiguous, ?_, h.lastTerm, ?_, ?_, ?_, ?_, ?_⟩
  · rw [lastIndexChecked_eq hlast', h.lastIndex]
  · intro i
    rw [termAtChecked_eq, h.termAt]
  · intro k
    rw [entriesFromChecked_eq (h.base ▸ hbase) hlast', Option.map_some, h.entriesFrom]
  · intro call hwal hnext
    have hnext := hnext.now.2
    rw [abstractLog_snoc] at hnext
    obtain ⟨log', hok, _⟩ := h.returnsOk hlast hnext hwal
    exact ⟨log', hok⟩
  · intro i t hi hwal call hcall
    obtain ⟨log', hok, h'⟩ : ∃ log', ReturnsOk log call log' ∧
        Refines log'.toLogView ((abstractLog calls).apply (.moveBase i t)) := by
      rcases List.mem_pair.mp hcall with rfl | rfl
      · exact h.compact hlast' (fun _ => hwal)
      · exact h.installSnapshot (fun _ => hwal)
    exact ⟨log', hok, snapshot_beyond h h' hi⟩
  · intro i t hi hheld ht hwal
    obtain ⟨log', hok, h'⟩ := h.compact hlast' (fun _ => hwal)
    obtain ⟨hindex, hterm, hterms, hentries⟩ := compact_invisible h h' hi hheld ht
    refine ⟨log', hok, hindex, hterm, hterms, hentries, ?_⟩
    rintro n rfl
    rw [ReturnsOk, compactChecked_eq hlast'] at hok
    exact compactLog_votes (Option.some.inj hok) hindex hterm

/-- A call that returns Ok is one whose WAL calls succeed. -/
theorem call_of_returnsOk {log log' : RaftLog} {call : LogCall}
    (hlast : log.lastIndex + 1 < 2 ^ 64) (h : ReturnsOk log call log') : Call log call log' := by
  have hlast' := Nat.lt_of_succ_lt hlast
  cases call with
  | append term data =>
    refine ⟨?_, .append h⟩
    rw [ReturnsOk, appendChecked_eq hlast, RaftLog.append] at h
    rw [WalSucceeds, Accepts]
    split at h
    · cases h
    · rename_i sequence w hw
      exact ⟨sequence, w, hw⟩
  | truncateFrom i =>
    refine ⟨?_, .truncateFrom h⟩
    intro hlow hhigh
    rw [ReturnsOk, truncateFromChecked_eq hlast', RaftLog.truncateFrom, if_neg (by omega)] at h
    split at h
    · cases h
    · rename_i sequence w hw
      exact ⟨sequence, w, hw⟩
  | compact i t =>
    refine ⟨?_, .compact h⟩
    intro hlow
    rw [ReturnsOk, compactChecked_eq hlast', RaftLog.compact, if_neg (by omega)] at h
    split at h
    · cases h
    · rename_i w hw
      exact journals_of_snapshot hw
  | installSnapshot i t =>
    refine ⟨?_, .installSnapshot h⟩
    intro hlow
    rw [ReturnsOk, RaftLog.installSnapshot, if_neg (by omega)] at h
    split at h
    · cases h
    · rename_i w hw
      exact journals_of_snapshot hw

omit [Crc32] in
/-- Two entries, of which the second is replaced and the first compacted away. -/
theorem log_refines_abstract_compacted :
    ∃ log₀ log, @RaftLog.open ieee walConfig Dir.empty = .ok log₀ ∧
      Steps (@Call ieee) log₀ [.append 1 [7], .append 1 [8], .truncateFrom 2, .append 2 [9],
        .compact 1 1] log ∧ lastIndexChecked log.toLogView = some 2 ∧
      termAtChecked log.toLogView 1 = some (some 1) ∧
      (entriesFromChecked log.toLogView 1).map (List.map parts) = some [(2, 2, [9])] := by
  let _ : Crc32 := ieee
  obtain ⟨log₀, hopen, hview, hhealthy, hcfg, hn⟩ := open_log_empty walConfig
  have hfit : headerSize + (17 + 1) ≤ walConfig.maxSegmentBytes := by decide
  obtain ⟨log₁, happ₁, hview₁, hhealthy₁, hcfg₁, hn₁⟩ := append_spec hhealthy 1 [7]
    (by rw [hn]; decide) (by decide) (by rw [hcfg]; exact hfit)
  rw [hcfg] at hcfg₁
  rw [hn] at hn₁
  rw [hview] at hview₁
  obtain ⟨log₂, happ₂, hview₂, hhealthy₂, hcfg₂, hn₂⟩ := append_spec hhealthy₁ 1 [8]
    (by rw [hn₁]; decide) (by decide) (by rw [hcfg₁]; exact hfit)
  rw [hcfg₁] at hcfg₂
  rw [hn₁] at hn₂
  rw [hview₁] at hview₂
  obtain ⟨log₃, htr, hview₃, hhealthy₃, hcfg₃, hn₃⟩ := truncateFrom_spec hhealthy₂ (i := 2)
    (by rw [hn₂]; decide) (by rw [hcfg₂]; decide) (by rw [hview₂]; decide)
  rw [hcfg₂] at hcfg₃
  rw [hn₂] at hn₃
  rw [hview₂] at hview₃
  obtain ⟨log₄, happ₄, hview₄, hhealthy₄, hcfg₄, hn₄⟩ := append_spec hhealthy₃ 2 [9]
    (by rw [hn₃]; decide) (by decide) (by rw [hcfg₃]; exact hfit)
  rw [hcfg₃] at hcfg₄
  rw [hn₃] at hn₄
  rw [hview₃] at hview₄
  obtain ⟨log₅, hc, _⟩ := compact_spec hhealthy₄ (i := 1) (t := 1) (by rw [hn₄]; decide)
    (by rw [hcfg₄]; decide) (by rw [hview₄]; decide)
  have hlast : log₀.lastIndex = 0 ∧ log₁.lastIndex = 1 ∧ log₂.lastIndex = 2 ∧
      log₃.lastIndex = 1 ∧ log₄.lastIndex = 2 := by
    rw [hview, hview₁, hview₂, hview₃, hview₄]
    decide
  obtain ⟨hlast₀, hlast₁, hlast₂, hlast₃, hlast₄⟩ := hlast
  have hsteps : Steps Call log₀ [.append 1 [7], .append 1 [8], .truncateFrom 2, .append 2 [9],
      .compact 1 1] log₅ := by
    refine .cons (t := log₁) ?_ (.cons (t := log₂) ?_ (.cons (t := log₃) ?_
      (.cons (t := log₄) ?_ (.one ?_))))
    · apply call_of_returnsOk (by rw [hlast₀]; decide)
      rw [ReturnsOk, appendChecked_eq (by rw [hlast₀]; decide), happ₁]
    · apply call_of_returnsOk (by rw [hlast₁]; decide)
      rw [ReturnsOk, appendChecked_eq (by rw [hlast₁]; decide), happ₂]
    · apply call_of_returnsOk (by rw [hlast₂]; decide)
      rw [ReturnsOk, truncateFromChecked_eq (by rw [hlast₂]; decide), htr]
    · apply call_of_returnsOk (by rw [hlast₃]; decide)
      rw [ReturnsOk, appendChecked_eq (by rw [hlast₃]; decide), happ₄]
    · apply call_of_returnsOk (by rw [hlast₄]; decide)
      rw [ReturnsOk, compactChecked_eq (by rw [hlast₄]; decide), hc]
  have hroom : Room [.append 1 [7], .append 1 [8], .truncateFrom 2, .append 2 [9],
      .compact 1 1] := by
    have h₁ := Room.empty.snoc (.append 1 [7]) (by decide)
    have h₂ := h₁.snoc (.append 1 [8]) (by decide)
    have h₃ := h₂.snoc (.truncateFrom 2) (by decide)
    have h₄ := h₃.snoc (.append 2 [9]) (by decide)
    exact h₄.snoc (.compact 1 1) (by decide)
  obtain ⟨_, hindex, _, hterms, hentries, _⟩ := log_refines_abstract hopen hsteps hroom
  exact ⟨log₀, log₅, hopen, hsteps, hindex, hterms 1, hentries 1⟩

omit [Crc32] in
/-- Behind a snapshot at the largest index no entry can be read or appended. -/
theorem read_overflows :
    ¬ ∀ (config : WalConfig) (log₀ log : RaftLog) (calls : List LogCall),
      @RaftLog.open ieee config Dir.empty = .ok log₀ → Steps (@Call ieee) log₀ calls log →
        (∀ k, (entriesFromChecked log.toLogView k).map (List.map parts) =
          some ((abstractLog calls).entriesFrom k)) := by
  intro hclaim
  let _ : Crc32 := ieee
  obtain ⟨log₀, hopen, hview, hhealthy, hcfg, hn⟩ := open_log_empty walConfig
  obtain ⟨log, hinstall, hview', _⟩ := installSnapshot_spec hhealthy (i := 2 ^ 64 - 1) (t := 1)
    (by rw [hn]; decide) (by rw [hcfg]; decide) (by rw [hview]; decide)
  have hcall : Call log₀ (.installSnapshot (2 ^ 64 - 1) 1) log :=
    call_of_returnsOk (by rw [hview]; decide) hinstall
  have hread := hclaim walConfig log₀ log _ hopen (.one hcall) 1
  rw [hview', entriesFromChecked_installed (by decide)] at hread
  cases hread

end ReplicatedLogRefinement
