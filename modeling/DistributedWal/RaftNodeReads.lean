import DistributedWal.RaftNodeAgreement
import DistributedWal.RaftNodeWrites

/-! # What a leader gives back to readers

A read gives what the log holds from an index on. What a leader has acknowledged is there
until a snapshot takes it out of the log.
-/
namespace RaftNodeReads

open LittleEndianCodec WalSegment WalEngine WalContents ReplicatedLog ReplicatedLogContents
open WalEntry (Crc32 ieee WalError)
open RaftPersistentState RaftSnapshot RaftNode RaftNodeFrame RaftNodeHandlers RaftNodeLogs
open RaftNodeVotes RaftNodeAppends RaftNodeAgreement RaftNodeMoves RaftNodeLife RaftCluster
open RaftNodeWrites

def Ascending (es : List LogEntry) : Prop := es.Pairwise (fun e f => e.index < f.index)

/-- Entries that lie at the places of their indices, in ascending order. -/
theorem sublist_of_positions {es l : List LogEntry} {b : ℕ} (hasc : Ascending es)
    (h : ∀ e ∈ es, b ≤ e.index ∧ l[e.index - b]? = some e) : es.Sublist l := by
  induction es generalizing l b with
  | nil => exact List.nil_sublist l
  | cons e es ih =>
    obtain ⟨hlt, hasc⟩ := List.pairwise_cons.mp hasc
    obtain ⟨hb, he⟩ := h e (List.mem_cons_self ..)
    obtain ⟨hp, heq⟩ := List.getElem?_eq_some_iff.mp he
    have hdrop : l.drop (e.index - b) = e :: l.drop (e.index - b + 1) := by
      rw [List.drop_eq_getElem_cons hp, heq]
    have hrest : es.Sublist (l.drop (e.index - b + 1)) := by
      apply ih (b := e.index + 1) hasc
      intro f hf
      have hef := hlt f hf
      obtain ⟨_, hfl⟩ := h f (List.mem_cons_of_mem _ hf)
      refine ⟨hef, ?_⟩
      rw [List.getElem?_drop]
      have hpos : e.index - b + 1 + (f.index - (e.index + 1)) = f.index - b := by omega
      rw [hpos]
      exact hfl
    have hfull := hrest.cons_cons e
    rw [← hdrop] at hfull
    exact hfull.trans (List.drop_sublist _ l)

/-- What is kept of the acknowledged entries. -/
structure Kept (acked : List LogEntry) (v : LogView) : Prop where
  ascending : Ascending acked
  last : ∀ e ∈ acked, e.index ≤ v.lastIndex
  entries : ∀ e ∈ acked, v.snapshotIndex < e.index → entryAt v e.index = some e

theorem Kept.read {acked : List LogEntry} {v : LogView} (h : Kept acked v) {i : ℕ}
    (habove : ∀ e ∈ acked, i ≤ e.index → v.snapshotIndex < e.index) :
    (acked.filter (fun e => i ≤ e.index)).Sublist (v.entriesFrom i) := by
  rw [LogView.entriesFrom]
  split
  · rename_i hout
    have hnone : acked.filter (fun e => i ≤ e.index) = [] := by
      rw [List.filter_eq_nil_iff]
      intro e he hi
      have hi := of_decide_eq_true hi
      have hlow := habove e he hi
      have hlast := h.last e he
      omega
    exact hnone ▸ List.nil_sublist _
  · apply sublist_of_positions (b := max i (v.snapshotIndex + 1))
    · exact h.ascending.filter _
    · intro e he
      obtain ⟨he, hi⟩ := List.mem_filter.mp he
      have hi := of_decide_eq_true hi
      have hlow := habove e he hi
      have hentry := h.entries e he hlow
      rw [entryAt_above hlow] at hentry
      refine ⟨by omega, ?_⟩
      rw [List.getElem?_drop]
      have hpos : max i (v.snapshotIndex + 1) - v.snapshotIndex - 1 +
          (e.index - max i (v.snapshotIndex + 1)) = e.index - v.snapshotIndex - 1 := by omega
      rw [hpos]
      exact hentry

theorem mem_entriesFrom {v : LogView} {i : ℕ} {e : LogEntry} (h : e ∈ v.entriesFrom i) :
    e ∈ v.entries := by
  rw [LogView.entriesFrom] at h
  split at h
  · cases h
  · exact List.mem_of_mem_drop h

theorem entryAt_push {v : LogView} {i : ℕ} (hi : i ≤ v.lastIndex) (t : ℕ) (data : Bytes) :
    entryAt (v.push t data) i = entryAt v i := by
  by_cases hlow : v.snapshotIndex < i
  · rw [LogView.lastIndex] at hi
    have hlow' : (v.push t data).snapshotIndex < i := hlow
    rw [entryAt_above hlow, entryAt_above hlow']
    show (v.entries ++ [_])[i - v.snapshotIndex - 1]? = _
    rw [List.getElem?_append_left (by omega)]
  · have hlow := Nat.not_lt.mp hlow
    rw [entryAt_below hlow]
    exact entryAt_below hlow

theorem entryAt_push_last (v : LogView) (t : ℕ) (data : Bytes) :
    entryAt (v.push t data) (v.lastIndex + 1) = some ⟨t, v.lastIndex + 1, data⟩ := by
  have hindex : v.lastIndex + 1 - v.snapshotIndex - 1 = v.entries.length := by
    rw [LogView.lastIndex]
    omega
  have hlow : (v.push t data).snapshotIndex < v.lastIndex + 1 :=
    Nat.lt_succ_of_le (Nat.le_add_right _ _)
  rw [entryAt_above hlow]
  show (v.entries ++ [⟨t, v.lastIndex + 1, data⟩])[v.lastIndex + 1 - v.snapshotIndex - 1]? = _
  rw [hindex, List.getElem?_concat_length]

theorem Kept.push {acked : List LogEntry} {v : LogView} (h : Kept acked v) (t : ℕ)
    (data : Bytes) : Kept acked (v.push t data) := by
  refine ⟨h.ascending, ?_, ?_⟩
  · intro e he
    rw [LogView.push_lastIndex]
    exact Nat.le_succ_of_le (h.last e he)
  · intro e he hlow
    rw [entryAt_push (h.last e he)]
    exact h.entries e he hlow

/-- A snapshot up to the last index hides every entry. -/
theorem Kept.hidden {acked : List LogEntry} {v w : LogView} (h : Kept acked v)
    (hlast : v.lastIndex ≤ w.snapshotIndex) : Kept acked w := by
  refine ⟨h.ascending, ?_, ?_⟩
  · intro e he
    exact (h.last e he).trans (hlast.trans (Nat.le_add_right _ _))
  · intro e he hlow
    have := h.last e he
    omega

/-- One more acknowledged entry, at the end of the log. -/
theorem Kept.snoc {acked : List LogEntry} {v : LogView} (h : Kept acked v) {e : LogEntry}
    (hnew : ∀ f ∈ acked, f.index < e.index) (hlast : e.index ≤ v.lastIndex)
    (hentry : v.snapshotIndex < e.index → entryAt v e.index = some e) :
    Kept (acked ++ [e]) v := by
  refine ⟨?_, ?_, ?_⟩
  · apply List.pairwise_append.mpr
    refine ⟨h.ascending, List.pairwise_singleton _ _, ?_⟩
    intro f hf g hg
    obtain rfl := List.mem_singleton.mp hg
    exact hnew f hf
  · intro f hf
    rcases List.mem_append.mp hf with hf | hf
    · exact h.last f hf
    · obtain rfl := List.mem_singleton.mp hf
      exact hlast
  · intro f hf hlow
    rcases List.mem_append.mp hf with hf | hf
    · exact h.entries f hf hlow
    · obtain rfl := List.mem_singleton.mp hf
      exact hentry hlow

/-- `since` is about the log as a whole: before its first snapshot in office the leader may
have found gaps in it. -/
structure Invariant (n₀ : Node) (acked : List LogEntry) (n : Node) (d : Doing) : Prop
    extends Kept acked n.log.toLogView where
  above : ∀ e ∈ acked, n₀.log.lastIndex < e.index
  since : n.log.snapshotIndex = n₀.log.snapshotIndex ∨ n.log.toLogView.Contiguous
  grown : n₀.log.lastIndex ≤ n.log.lastIndex
  writing : ∀ index data, d = .writing index data → index = n.log.lastIndex ∧
    entryAt n.log.toLogView index = some ⟨n.ps.currentTerm, index, data⟩ ∧
    n₀.log.lastIndex < index ∧ ∀ e ∈ acked, e.index < index

/-- An action that leaves the log alone and acknowledges nothing. -/
theorem Invariant.untouched {n₀ n m : Node} {acked : List LogEntry} {d d' : Doing}
    (h : Invariant n₀ acked n d)
    (hlog : m.log.toLogView = n.log.toLogView)
    (hd : ∀ index data, d' ≠ .writing index data) : Invariant n₀ acked m d' := by
  refine ⟨hlog ▸ h.toKept, h.above, ?_, ?_, ?_⟩
  · rw [hlog]
    exact h.since
  · rw [hlog]
    exact h.grown
  · intro index data heq
    exact absurd heq (hd index data)

section

variable [Crc32]

/-- The entry that the action acknowledges. -/
def ackedBy (n : Node) : Doing → Action → Option LogEntry
  | .writing _ data, .finishWrite index appends snapshots =>
    match (n.begin.finishWrite index appends snapshots).1 with
    | .ok i => some ⟨n.ps.currentTerm, i, data⟩
    | .error _ => none
  | _, _ => none

/-- What a node does from `n₀` on as long as it leads, with the entries that it has
acknowledged. -/
inductive Leadership (n₀ : Node) : List LogEntry → Node → Doing → Prop where
  | start (hrole : n₀.role = .leader) : Leadership n₀ [] n₀ .idle
  | act {acked : List LogEntry} {n : Node} {d d' : Doing} {a : Action}
      (run : Leadership n₀ acked n d) (hturn : Turn n d a d') (hrole : (n.act a).role = .leader) :
      Leadership n₀ (acked ++ (ackedBy n d a).toList) (n.act a) d'

variable {n₀ n : Node} {acked : List LogEntry} {d d' : Doing} {a : Action}

/-- A leader that keeps its office only takes in what is out of date. -/
theorem onAppendEntries_leads {req : AppendEntriesRequest}
    (h : (n.onAppendEntries req).2.role = .leader) : (n.onAppendEntries req).2 = n := by
  rw [onAppendEntries_role] at h
  split at h
  · rename_i hlt
    rw [Node.onAppendEntries, if_pos hlt]
  · cases h

theorem onInstallSnapshot_leads {req : InstallSnapshotRequest}
    (h : (n.onInstallSnapshot req).2.role = .leader) : (n.onInstallSnapshot req).2 = n := by
  rw [onInstallSnapshot_role] at h
  split at h
  · rename_i hlt
    rw [Node.onInstallSnapshot, if_pos hlt]
  · cases h

theorem Invariant.startWrite (h : Invariant n₀ acked n .idle) {data : Bytes} {index : ℕ}
    (hwrite : (n.begin.startWrite data).1 = .ok index) :
    Invariant n₀ acked (n.act (.startWrite data)) (.writing index data) := by
  have hps : (n.act (.startWrite data)).ps = n.ps := (startWrite_quiet n.begin data).ps
  rcases startWrite_cases n.begin data with ⟨⟨e, herr⟩, _⟩ | ⟨_, hok, hview⟩
  · rw [hwrite] at herr
    cases herr
  · rw [hwrite] at hok
    cases hok
    have hview : (n.act (.startWrite data)).log.toLogView =
        n.log.toLogView.push n.ps.currentTerm data := hview
    have hgrown := h.grown
    refine ⟨?_, h.above, ?_, ?_, ?_⟩
    · rw [hview]
      exact h.toKept.push _ _
    · rw [hview]
      rcases h.since with hsame | hcont
      · exact Or.inl hsame
      · exact Or.inr (hcont.push _ _)
    · rw [hview, LogView.push_lastIndex]
      omega
    · intro i b heq
      cases heq
      rw [hview, hps, LogView.push_lastIndex]
      refine ⟨rfl, entryAt_push_last _ _ _, Nat.lt_succ_of_le hgrown, ?_⟩
      intro e he
      exact Nat.lt_succ_of_le (h.last e he)

theorem Invariant.finishWrite (h : Invariant n₀ acked n d) {index : ℕ} {data : Bytes}
    (hd : d = .writing index data) (appends : List (NodeId × Option AppendEntriesResponse))
    (snapshots : List (NodeId × Option InstallSnapshotResponse)) :
    Invariant n₀ (acked ++ (ackedBy n d (.finishWrite index appends snapshots)).toList)
      (n.act (.finishWrite index appends snapshots)) .idle := by
  obtain ⟨hlast, hentry, hnew, hall⟩ := h.writing index data hd
  have hlog := ((begin_untouched n).trans
    (finishReplication_untouched n.begin index appends snapshots)).log
  have hcases := commitWrite_cases (n.begin.finishReplication index appends snapshots).2 index
    (n.begin.finishReplication index appends snapshots).1
  rw [hlog, ← finishWrite_eq] at hcases
  have hacked : ∀ r, (n.begin.finishWrite index appends snapshots).1 = .ok r →
      ackedBy n d (.finishWrite index appends snapshots) = some ⟨n.ps.currentTerm, r, data⟩ := by
    intro r hr
    rw [hd, ackedBy, hr]
  have hidle : ∀ i b, Doing.idle ≠ .writing i b := by
    intro i b heq
    cases heq
  have habove : ∀ e ∈ acked ++ [⟨n.ps.currentTerm, index, data⟩], n₀.log.lastIndex < e.index := by
    intro e he
    rcases List.mem_append.mp he with he | he
    · exact h.above e he
    · obtain rfl := List.mem_singleton.mp he
      exact hnew
  rcases hcases with ⟨herr, hn⟩ | ⟨hok, _, _, _, hview | ⟨hi, hview⟩⟩
  · have hnone : ackedBy n d (.finishWrite index appends snapshots) = none := by
      rw [hd, ackedBy, herr]
    rw [hnone, Option.toList_none, List.append_nil]
    apply h.untouched ?_ hidle
    rw [Node.act, hn, hlog]
  · rw [hacked index hok, Option.toList_some]
    have hview : (n.act (.finishWrite index appends snapshots)).log.toLogView =
        n.log.toLogView := hview
    refine ⟨?_, habove, ?_, ?_, fun i b heq => absurd heq (hidle i b)⟩
    · rw [hview]
      exact h.toKept.snoc hall (Nat.le_of_eq hlast) (fun _ => hentry)
    · rw [hview]
      exact h.since
    · rw [hview]
      exact h.grown
  · rw [hacked index hok, Option.toList_some]
    set t := (n.log.termAt index).getD n.log.snapshotTerm with ht
    have hview : (n.act (.finishWrite index appends snapshots)).log.toLogView =
        ⟨[], index, t⟩ := by
      rw [hlast, ← compactTo_last, ← hlast]
      exact hview
    refine ⟨?_, habove, ?_, ?_, fun i b heq => absurd heq (hidle i b)⟩
    · rw [hview]
      apply (h.toKept.hidden (Nat.le_of_eq hlast.symm)).snoc hall (Nat.le_refl _)
      intro hlow
      exact absurd hlow (lt_irrefl _)
    · rw [hview]
      right
      intro k e hk
      simp at hk
    · rw [hview]
      exact Nat.le_of_lt hnew

theorem Invariant.act (h : Invariant n₀ acked n d) (hturn : Turn n d a d')
    (hrole : (n.act a).role = .leader) :
    Invariant n₀ (acked ++ (ackedBy n d a).toList) (n.act a) d' := by
  have hquiet : ∀ {d' : Doing} {b : Action}, ackedBy n d b = none → (∀ i x, d' ≠ .writing i x) →
      (n.act b).log.toLogView = n.log.toLogView →
      Invariant n₀ (acked ++ (ackedBy n d b).toList) (n.act b) d' := by
    intro d' b hnone hd hlog
    rw [hnone, Option.toList_none, List.append_nil]
    exact h.untouched hlog hd
  have hsame : ∀ {b : Action}, ¬ TouchesLog b → (n.act b).log.toLogView = n.log.toLogView :=
    fun hb => congrArg RaftLog.toLogView (act_untouched hb).log
  cases hturn with
  | requestVote req => exact hquiet rfl (fun _ _ heq => by cases heq) (hsame (fun hf => hf))
  | appendEntries req =>
    apply hquiet rfl (fun _ _ heq => by cases heq)
    rw [Node.act, onAppendEntries_leads hrole]
    rfl
  | installSnapshot req =>
    apply hquiet rfl (fun _ _ heq => by cases heq)
    rw [Node.act, onInstallSnapshot_leads hrole]
    rfl
  | startElection hne => exact hquiet rfl (fun _ _ heq => by cases heq) (hsame (fun hf => hf))
  | finishElection results =>
    exact hquiet rfl (fun _ _ heq => by cases heq) (hsame (fun hf => hf))
  | @writeRefused data e hwrite =>
    apply hquiet rfl (fun _ _ heq => by cases heq)
    rcases startWrite_cases n.begin data with ⟨_, hview⟩ | ⟨_, hok, _⟩
    · exact hview
    · rw [hwrite] at hok
      cases hok
  | @writeStarted data index hwrite =>
    have hnone : ackedBy n .idle (.startWrite data) = none := rfl
    rw [hnone, Option.toList_none, List.append_nil]
    exact h.startWrite hwrite
  | @finishWrite index data appends snapshots happends hsnapshots =>
    exact h.finishWrite rfl appends snapshots
  | sendHeartbeats hlead =>
    exact hquiet rfl (fun _ _ heq => by cases heq) (hsame (fun hf => hf))
  | finishHeartbeats results =>
    exact hquiet rfl (fun _ _ heq => by cases heq) (hsame (fun hf => hf))
  | clientRead fromIndex =>
    exact hquiet rfl (fun _ _ heq => by cases heq) (hsame (fun hf => hf))

theorem Leadership.invariant (run : Leadership n₀ acked n d) : Invariant n₀ acked n d := by
  induction run with
  | start hrole =>
    refine ⟨⟨List.Pairwise.nil, ?_, ?_⟩, ?_, Or.inl rfl, le_rfl, ?_⟩
    · intro e he
      cases he
    · intro e he
      cases he
    · intro e he
      cases he
    · intro index data heq
      cases heq
  | act run hturn hrole ih => exact ih.act hturn hrole

/-- A reader gets, in index order, what the leader has acknowledged from `i` on, as long as
the snapshot is below all of it. -/
theorem acknowledged_writes_readable (run : Leadership n₀ acked n .idle) (i : ℕ) :
    (Ascending acked ∧ (acked.filter (fun e => i ≤ e.index)).Sublist (n.clientRead i)) ↔
      ∀ e ∈ acked, i ≤ e.index → n.log.snapshotIndex < e.index := by
  have hinv := run.invariant
  constructor
  · rintro ⟨_, hsub⟩ e he hi
    have hread : e ∈ n.log.entries :=
      mem_entriesFrom (hsub.subset (List.mem_filter.mpr ⟨he, decide_eq_true hi⟩))
    rcases hinv.since with hsame | hcont
    · have habove := hinv.above e he
      rw [hsame]
      rw [LogView.lastIndex] at habove
      omega
    · exact (hcont.bounds hread).1
  · intro habove
    exact ⟨hinv.ascending, hinv.toKept.read habove⟩

/-- What the writes of a leader without peers acknowledge. -/
def ackedEntries (last : ℕ) (data : Bytes) (k : ℕ) : List LogEntry :=
  (List.range k).map (fun i => ⟨1, last + i + 1, data⟩)

theorem leadership_write {v : LogView} {since bound : ℕ} {data : Bytes}
    (run : Leadership n₀ acked n .idle) (h : Alone n v since bound) (hsince : since < 100)
    (hfit : FitsSegment data) (hbound : bound + 1 < 2 ^ 64) :
    ∃ m, Leadership n₀ (acked ++ [⟨1, v.lastIndex + 1, data⟩]) m .idle ∧
      AloneAfter n v data since bound m := by
  obtain ⟨w, hw⟩ := h.startWrite hfit (by omega)
  obtain ⟨hresult, hafter⟩ := hw.after h hsince hbound
  obtain ⟨log, trail, hnode⟩ := hw.written.node
  have hrole : (n.act (.startWrite data)).role = .leader := by
    rw [hw.act, hnode]
    exact h.role
  have run := run.act (.writeStarted hw.result) hrole
  have hnone : ackedBy n .idle (.startWrite data) = none := rfl
  rw [hnone, Option.toList_none, List.append_nil, hw.act] at run
  have hturn : Turn w (.writing (v.lastIndex + 1) data) (.finishWrite (v.lastIndex + 1) [] [])
      .idle := .finishWrite (by rw [hw.calls.1]; rfl) (by rw [hw.calls.2]; rfl)
  have hlead : (w.act (.finishWrite (v.lastIndex + 1) [] [])).role = .leader := by
    by_cases hlow : since + 1 < 100
    · exact (hafter.stays hlow).1.role
    · exact (hafter.moves (by omega)).1.role
  have run := run.act hturn hlead
  have hacked : ackedBy w (.writing (v.lastIndex + 1) data)
      (.finishWrite (v.lastIndex + 1) [] []) = some ⟨1, v.lastIndex + 1, data⟩ := by
    rw [ackedBy, hresult, hw.term]
  rw [hacked, Option.toList_some] at run
  exact ⟨_, run, hafter⟩

theorem leadership_writes {v : LogView} {bound : ℕ} {data : Bytes}
    (run : Leadership n₀ [] n .idle) (h : Alone n v 0 bound) (hfit : FitsSegment data)
    (hbound : bound + 101 < 2 ^ 64) (k : ℕ) (hk : k < 100) :
    ∃ m, Leadership n₀ (ackedEntries v.lastIndex data k) m .idle ∧
      Alone m (grow v data k) k (bound + k) := by
  induction k with
  | zero => exact ⟨n, run, h⟩
  | succ k ih =>
    obtain ⟨m, run', hm⟩ := ih (by omega)
    obtain ⟨m', run'', hafter⟩ := leadership_write run' hm (by omega) hfit (by omega)
    have hacked : ackedEntries v.lastIndex data (k + 1) =
        ackedEntries v.lastIndex data k ++ [⟨1, v.lastIndex + k + 1, data⟩] := by
      simp [ackedEntries, List.range_succ]
    rw [grow_lastIndex, ← hacked] at run''
    exact ⟨m', run'', (hafter.stays hk).1⟩

end

/-- Three writes, read back from the second on. -/
theorem acknowledged_writes_readable_second :
    ∃ n₀ n, @Leadership ieee n₀ [⟨1, 1, [7]⟩, ⟨1, 2, [7]⟩, ⟨1, 3, [7]⟩] n .idle ∧
      List.Sublist [⟨1, 2, [7]⟩, ⟨1, 3, [7]⟩] (n.clientRead 2) := by
  let _ : Crc32 := ieee
  obtain ⟨_, _, n, _, _, _, halone, _⟩ := run_elected_alone anything_allows trivial
  obtain ⟨m, run, hm⟩ := leadership_writes (.start halone.role) halone
    (fitsSegment_byte 7) (by decide) 3
    (by decide)
  have hbelow : ∀ e ∈ ackedEntries LogView.empty.lastIndex [7] 3, 2 ≤ e.index →
      m.log.snapshotIndex < e.index := by
    intro e _ hi
    rw [hm.view]
    exact Nat.lt_of_lt_of_le Nat.zero_lt_two hi
  exact ⟨n, m, run, ((acknowledged_writes_readable run 2).mpr hbelow).2⟩

/-- The hundredth write takes everything out of the log, the readers' entries as well. -/
theorem acknowledged_writes_unreadable :
    ¬ ∀ (c : Cluster) (es : List Event) (s : State), @ClusterRun ieee c anything es s →
      ∀ id ∈ c.members, ∀ n₀, s.processes id = .running n₀ →
        ∀ acked n, @Leadership ieee n₀ acked n .idle →
          ∀ i, (acked.filter (fun e => i ≤ e.index)).Sublist (n.clientRead i) := by
  intro hclaim
  let _ : Crc32 := ieee
  obtain ⟨c, s, n, run, hmembers, hup, halone, _⟩ := run_elected_alone anything_allows trivial
  have hid : "n1" ∈ c.members := by
    rw [hmembers]
    exact List.mem_singleton_self _
  obtain ⟨m, lead, hm⟩ := leadership_writes (.start halone.role) halone
    (fitsSegment_byte 7) (by decide) 99
    (by decide)
  obtain ⟨m', lead', hafter⟩ := leadership_write lead hm (by decide)
    (fitsSegment_byte 7) (by decide)
  have hview := (hafter.moves rfl).1.view
  have hread := hclaim c _ s run "n1" hid n hup _ m' lead' 100
  have hempty : m'.clientRead 100 = [] := by
    rw [Node.clientRead, hview, LogView.entriesFrom, if_pos]
    rw [grow_lastIndex]
    decide
  have hindex : 100 ≤ (grow LogView.empty [7] 99).lastIndex + 1 := by
    rw [grow_lastIndex]
    decide
  have hlast := hread.subset (List.mem_filter.mpr
    ⟨List.mem_append_right _ (List.mem_singleton_self _), decide_eq_true hindex⟩)
  rw [hempty] at hlast
  exact absurd hlast List.not_mem_nil

end RaftNodeReads
