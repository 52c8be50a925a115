import DistributedWal.RaftNodeAppends

/-! # Requests of a leader at a follower

A request that is acknowledged leaves the follower with the leader's entries up to the
leader's last index. So the order in which two requests of one leader arrive, and how
often each of them does, makes no difference.
-/
namespace RaftNodeAgreement

open LittleEndianCodec WalSegment WalEngine WalContents ReplicatedLog ReplicatedLogContents
open WalEntry (Crc32 ieee WalError)
open RaftPersistentState RaftSnapshot RaftNode RaftNodeHandlers RaftNodeLogs RaftNodeAppends
open FullLog LogMerge

/-- Contiguous entries whose terms start at 1. -/
structure WellFormed (v : LogView) : Prop where
  contiguous : v.Contiguous
  terms : ∀ e ∈ v.entries, 1 ≤ e.term
  snapshotTerm : 0 < v.snapshotIndex → 1 ≤ v.snapshotTerm

/-- Log matching of two logs, as far as their entries are kept. -/
def LogsMatch (v w : LogView) : Prop :=
  ∀ j t, v.termAt j = some t → w.termAt j = some t → ∀ k ≤ j,
    (∀ a b, v.termAt k = some a → w.termAt k = some b → a = b) ∧
    ∀ x y, entryAt v k = some x → entryAt w k = some y → x = y

theorem WellFormed.pos {v : LogView} (h : WellFormed v) {i t : ℕ} (ht : v.termAt i = some t) :
    1 ≤ t := by
  obtain ⟨hpos, hpoint⟩ := termAt_some_bounds ht
  by_cases heq : i = v.snapshotIndex
  · rw [LogView.termAt, if_neg (by omega), if_pos heq] at ht
    cases ht
    exact h.snapshotTerm (by omega)
  · rw [termAt_above (by omega)] at ht
    obtain ⟨e, he, rfl⟩ := Option.map_eq_some_iff.mp ht
    exact h.terms e (List.mem_of_getElem? he)

theorem termAt_known {v : LogView} {i : ℕ} (hi : 0 < i) (hpoint : v.snapshotIndex ≤ i)
    (hlast : i ≤ v.lastIndex) : ∃ t, v.termAt i = some t := by
  rw [LogView.lastIndex] at hlast
  by_cases heq : i = v.snapshotIndex
  · exact ⟨v.snapshotTerm, by rw [LogView.termAt, if_neg (by omega), if_pos heq]⟩
  · rw [termAt_above (by omega), List.getElem?_eq_getElem (by omega)]
    exact ⟨_, rfl⟩

theorem entryAt_above {v : LogView} {i : ℕ} (hi : v.snapshotIndex < i) :
    entryAt v i = v.entries[i - v.snapshotIndex - 1]? := if_neg (by omega)

theorem entryAt_below {v : LogView} {i : ℕ} (hi : i ≤ v.snapshotIndex) : entryAt v i = none :=
  if_pos hi

theorem termAt_entryAt {v : LogView} {i : ℕ} (hi : v.snapshotIndex < i) :
    v.termAt i = (entryAt v i).map LogEntry.term := by
  rw [termAt_above hi, entryAt_above hi]

theorem entryAt_bounds {v : LogView} {i : ℕ} {x : LogEntry} (h : entryAt v i = some x) :
    v.snapshotIndex < i ∧ i ≤ v.lastIndex := by
  by_cases hi : v.snapshotIndex < i
  · rw [entryAt_above hi] at h
    have := (List.getElem?_eq_some_iff.mp h).1
    rw [LogView.lastIndex]
    omega
  · rw [entryAt_below (by omega)] at h
    cases h

theorem entryAt_held {v : LogView} {i : ℕ} (hi : v.snapshotIndex < i) (hlast : i ≤ v.lastIndex) :
    ∃ x, entryAt v i = some x := by
  rw [LogView.lastIndex] at hlast
  rw [entryAt_above hi]
  exact ⟨_, List.getElem?_eq_getElem (by omega)⟩

/-- The next index of the peer, as `build_append_entries_for` looks it up. -/
def nextFor (l : Node) (peer : NodeId) : ℕ := (l.nextIndex peer).getD (l.log.lastIndex + 1)

theorem build_prev (l : Node) (peer : NodeId) :
    (l.buildAppendEntriesFor peer l.log.lastIndex).prevLogIndex = nextFor l peer - 1 := rfl

theorem build_entries {l : Node} (hc : l.log.toLogView.Contiguous) (peer : NodeId) :
    (l.buildAppendEntriesFor peer l.log.lastIndex).entries =
      l.log.entries.drop (nextFor l peer - 1 - l.log.snapshotIndex) := by
  have hall : ∀ es : List LogEntry, es <:+ l.log.entries →
      es.filter (fun e => e.index ≤ l.log.lastIndex) = es := by
    intro es hes
    rw [List.filter_eq_self]
    intro e he
    exact decide_eq_true (hc.bounds (hes.subset he)).2
  have hbuild : (l.buildAppendEntriesFor peer l.log.lastIndex).entries =
      (l.log.entriesFrom (nextFor l peer)).filter (fun e => e.index ≤ l.log.lastIndex) := rfl
  rw [hbuild, LogView.entriesFrom]
  split
  · rename_i hout
    rw [List.filter_nil]
    symm
    apply List.drop_eq_nil_of_le
    rw [LogView.lastIndex] at hout
    omega
  · rw [show max (nextFor l peer) (l.log.snapshotIndex + 1) - l.log.snapshotIndex - 1 =
      nextFor l peer - 1 - l.log.snapshotIndex by omega]
    exact hall _ (List.drop_suffix _ _)

theorem build_prevTerm {l : Node} {peer : NodeId} (hpos : 0 < nextFor l peer - 1)
    (hnext : l.log.snapshotIndex ≤ nextFor l peer - 1)
    (hlast : nextFor l peer - 1 ≤ l.log.lastIndex) :
    l.log.termAt (nextFor l peer - 1) =
      some (l.buildAppendEntriesFor peer l.log.lastIndex).prevLogTerm := by
  obtain ⟨t, ht⟩ := termAt_known (v := l.log.toLogView) hpos (by omega) hlast
  have hterm : (l.buildAppendEntriesFor peer l.log.lastIndex).prevLogTerm =
      (l.log.termAt (nextFor l peer - 1)).getD 0 := rfl
  rw [hterm, ht]
  rfl

/-- The follower's log after the request `es` behind `prev`. -/
structure Stored (v w : LogView) (prev : ℕ) (es : List LogEntry) : Prop where
  snapshotIndex : w.snapshotIndex = v.snapshotIndex
  snapshotTerm : w.snapshotTerm = v.snapshotTerm
  entries : w.entries = v.entries.take (prev - v.snapshotIndex) ++
    merge LogEntry.term (v.entries.drop (prev - v.snapshotIndex)) es

theorem stored_of_storeAll {v : LogView} {prev : ℕ} {es : List LogEntry}
    (hpoint : v.snapshotIndex ≤ prev) (hlast : prev ≤ v.lastIndex)
    (hes : Consecutive (prev + 1) es) : Stored v (storeAll v es) prev es := by
  have hmerge := storeAll_merge (v := v) (i := prev + 1) (by omega) (by omega) hes
  have hk : prev + 1 - v.snapshotIndex - 1 = prev - v.snapshotIndex := by omega
  rw [hk] at hmerge
  rw [hmerge]
  exact ⟨rfl, rfl, rfl⟩

section

variable {v w : LogView} {prev : ℕ} {es : List LogEntry}

theorem Stored.take (h : Stored v w prev es) (hlast : prev ≤ v.lastIndex) :
    w.entries.take (prev - v.snapshotIndex) = v.entries.take (prev - v.snapshotIndex) := by
  rw [LogView.lastIndex] at hlast
  rw [h.entries, List.take_append_of_le_length (by rw [List.length_take]; omega),
    List.take_take, Nat.min_self]

theorem Stored.old (h : Stored v w prev es) (hlast : prev ≤ v.lastIndex) {i : ℕ}
    (hi : i ≤ prev) : entryAt w i = entryAt v i ∧ w.termAt i = v.termAt i := by
  have hentry : entryAt w i = entryAt v i := by
    by_cases habove : v.snapshotIndex < i
    · rw [entryAt_above habove, entryAt_above (h.snapshotIndex ▸ habove), h.snapshotIndex]
      have htake := congrArg (fun l => l[i - v.snapshotIndex - 1]?) (h.take hlast)
      have hlt : i - v.snapshotIndex - 1 < prev - v.snapshotIndex := by omega
      simpa only [List.getElem?_take_of_lt hlt] using htake
    · rw [entryAt_below (by rw [h.snapshotIndex]; omega), entryAt_below (by omega)]
  refine ⟨hentry, ?_⟩
  by_cases habove : v.snapshotIndex < i
  · rw [termAt_entryAt habove, termAt_entryAt (h.snapshotIndex ▸ habove), hentry]
  · exact termAt_hidden h.snapshotIndex h.snapshotTerm (by omega)

/-- Entries behind the previous one: position in the log and in the request. -/
theorem Stored.new (h : Stored v w prev es) (hlast : prev ≤ v.lastIndex)
    (hpoint : v.snapshotIndex ≤ prev) (q : ℕ) :
    entryAt w (prev + 1 + q) =
      (merge LogEntry.term (v.entries.drop (prev - v.snapshotIndex)) es)[q]? := by
  rw [LogView.lastIndex] at hlast
  have hlen : (v.entries.take (prev - v.snapshotIndex)).length = prev - v.snapshotIndex := by
    rw [List.length_take]
    omega
  have hsub : prev + 1 + q - v.snapshotIndex - 1 - (prev - v.snapshotIndex) = q := by omega
  rw [entryAt_above (by rw [h.snapshotIndex]; omega), h.snapshotIndex, h.entries,
    List.getElem?_append_right (by omega), hlen, hsub]

theorem Stored.mem (h : Stored v w prev es) {x : LogEntry} (hx : x ∈ w.entries) :
    x ∈ v.entries ∨ x ∈ es := by
  rw [h.entries, List.mem_append] at hx
  rcases hx with hx | hx
  · exact Or.inl (List.mem_of_mem_take hx)
  · rcases mem_merge hx with hx | hx
    · exact Or.inl (List.mem_of_mem_drop hx)
    · exact Or.inr hx

theorem Stored.contiguous (h : Stored v w prev es) (hc : v.Contiguous)
    (hes : Consecutive (prev + 1) es) (hlast : prev ≤ v.lastIndex)
    (hpoint : v.snapshotIndex ≤ prev) : w.Contiguous := by
  intro k e he
  have hlast' := hlast
  rw [LogView.lastIndex] at hlast'
  rw [h.snapshotIndex]
  by_cases hk : k < prev - v.snapshotIndex
  · have htake := congrArg (fun l => l[k]?) (h.take hlast)
    simp only [List.getElem?_take_of_lt hk, he] at htake
    exact hc k e htake.symm
  · have hpos : prev + 1 + (k - (prev - v.snapshotIndex)) = v.snapshotIndex + 1 + k := by omega
    have hnew := h.new hlast hpoint (k - (prev - v.snapshotIndex))
    rw [hpos, entryAt_above (by rw [h.snapshotIndex]; omega), h.snapshotIndex,
      show v.snapshotIndex + 1 + k - v.snapshotIndex - 1 = k by omega, he] at hnew
    by_cases hold : ∃ p ≤ k - (prev - v.snapshotIndex),
        Conflict LogEntry.term (v.entries.drop (prev - v.snapshotIndex)) es p
    · obtain ⟨p, hp, hconf⟩ := hold
      rw [merge_of_conflict hconf hp] at hnew
      rw [hes _ e hnew.symm]
      exact hpos
    · rw [merge_of_no_conflict (fun p hp hcon => hold ⟨p, hp, hcon⟩)] at hnew
      rcases Option.or_eq_some_iff.mp hnew.symm with hx | ⟨_, hx⟩
      · rw [List.getElem?_drop] at hx
        have := hc _ e hx
        omega
      · rw [hes _ e hx]
        exact hpos

/-- Entries that are lost were behind a conflict. -/
theorem Stored.lost (h : Stored v w prev es) (hc : v.Contiguous)
    (hes : Consecutive (prev + 1) es) (hpoint : v.snapshotIndex ≤ prev) {x : LogEntry}
    (hx : x ∈ v.entries) (hlost : x ∉ w.entries) :
    ∃ e ∈ es, ∃ y ∈ v.entries, y.index = e.index ∧ y.term ≠ e.term := by
  obtain ⟨k, hk⟩ := List.mem_iff_getElem?.mp hx
  by_cases hlow : k < prev - v.snapshotIndex
  · refine absurd ?_ hlost
    rw [h.entries, List.mem_append]
    left
    apply List.mem_of_getElem? (i := k)
    rw [List.getElem?_take_of_lt hlow]
    exact hk
  · have hdrop : (v.entries.drop (prev - v.snapshotIndex))[k - (prev - v.snapshotIndex)]? =
        some x := by
      rw [List.getElem?_drop, Nat.add_sub_cancel' (Nat.not_lt.mp hlow)]
      exact hk
    rcases @merge_old _ LogEntry.term _ es _ _ hdrop with hkeep |
        ⟨p, _, y, e, hy, he, hne⟩
    · refine absurd ?_ hlost
      rw [h.entries, List.mem_append]
      exact Or.inr (List.mem_of_getElem? hkeep)
    · have hye := hes p e he
      rw [List.getElem?_drop] at hy
      have := hc _ y hy
      exact ⟨e, List.mem_of_getElem? he, y, List.mem_of_getElem? hy, by omega, hne⟩

end

/-- What the leader's log `l` and the logs `v` and `w` of the follower before and after
the request have to do with each other. -/
structure Agreed (l v w : LogView) (req : AppendEntriesRequest) : Prop where
  terms : ∀ i, l.snapshotIndex ≤ i → w.snapshotIndex ≤ i → i ≤ l.lastIndex →
    w.termAt i = l.termAt i
  entries : ∀ i, l.snapshotIndex < i → w.snapshotIndex < i → i ≤ l.lastIndex →
    entryAt w i = entryAt l i
  wellFormed : WellFormed w
  logsMatch : LogsMatch l w
  front : ∀ i ≤ req.prevLogIndex, entryAt w i = entryAt v i ∧ w.termAt i = v.termAt i
  lost : ∀ x ∈ v.entries, l.lastIndex < x.index → x ∉ w.entries →
    ∃ e ∈ req.entries, ∃ y ∈ v.entries, y.index = e.index ∧ y.term ≠ e.term

/-- Equal terms and entries wherever both are known are log matching. -/
theorem logsMatch_of_equal {l w : LogView}
    (hterms : ∀ i, l.snapshotIndex ≤ i → w.snapshotIndex ≤ i → i ≤ l.lastIndex →
      w.termAt i = l.termAt i)
    (hentries : ∀ i, l.snapshotIndex < i → w.snapshotIndex < i → i ≤ l.lastIndex →
      entryAt w i = entryAt l i) : LogsMatch l w := by
  intro j t hj _ k hk
  have hlast := termAt_le_last hj
  constructor
  · intro a b ha hb
    have hterm := hterms k (termAt_some_bounds ha).2 (termAt_some_bounds hb).2
      (termAt_le_last ha)
    rw [ha, hb] at hterm
    exact (Option.some.inj hterm).symm
  · intro x y hx hy
    have hentry := hentries k (entryAt_bounds hx).1 (entryAt_bounds hy).1 (entryAt_bounds hx).2
    rw [hx, hy] at hentry
    exact (Option.some.inj hentry).symm

/-- A request of the leader with the log `l` that took the follower's log from `v` to `w`. -/
structure Acknowledged (l v w : LogView) (req : AppendEntriesRequest) : Prop where
  lead : l.snapshotIndex ≤ req.prevLogIndex ∧ req.prevLogIndex ≤ l.lastIndex
  follower : v.snapshotIndex ≤ req.prevLogIndex ∧ req.prevLogIndex ≤ v.lastIndex
  entries : req.entries = l.entries.drop (req.prevLogIndex - l.snapshotIndex)
  consecutive : Consecutive (req.prevLogIndex + 1) req.entries
  known : 0 < req.prevLogIndex → l.termAt req.prevLogIndex = some req.prevLogTerm ∧
    v.termAt req.prevLogIndex = some req.prevLogTerm
  stored : Stored v w req.prevLogIndex req.entries

section

variable {l v w : LogView} {req : AppendEntriesRequest}

theorem Acknowledged.request (h : Acknowledged l v w req) (q : ℕ) :
    req.entries[q]? = entryAt l (req.prevLogIndex + 1 + q) := by
  have hlow := h.lead.1
  rw [h.entries, List.getElem?_drop, entryAt_above (by omega)]
  congr 1
  omega

theorem Acknowledged.old (h : Acknowledged l v w req) (q : ℕ) :
    (v.entries.drop (req.prevLogIndex - v.snapshotIndex))[q]? =
      entryAt v (req.prevLogIndex + 1 + q) := by
  have hlow := h.follower.1
  rw [List.getElem?_drop, entryAt_above (by omega)]
  congr 1
  omega

/-- Entries of one term at one index are the same by log matching. -/
theorem LogsMatch.same (hmatch : LogsMatch l v) {i : ℕ} {x y : LogEntry}
    (hx : entryAt v i = some x) (hy : entryAt l i = some y) (hterm : x.term = y.term) :
    x = y := by
  have hx' := termAt_entryAt (entryAt_bounds hx).1
  have hy' := termAt_entryAt (entryAt_bounds hy).1
  rw [hx, Option.map_some, hterm] at hx'
  rw [hy, Option.map_some] at hy'
  exact ((hmatch i _ hy' hx' i le_rfl).2 y x hy hx).symm

/-- Behind the previous entry the follower has the leader's entries. -/
theorem Acknowledged.past (h : Acknowledged l v w req) (hmatch : LogsMatch l v) {i : ℕ}
    (hi : req.prevLogIndex < i) (hlast : i ≤ l.lastIndex) : entryAt w i = entryAt l i := by
  have hlow := h.lead.1
  obtain ⟨q, rfl⟩ : ∃ q, i = req.prevLogIndex + 1 + q := ⟨i - req.prevLogIndex - 1, by omega⟩
  obtain ⟨y, hy⟩ : ∃ y, req.entries[q]? = some y := by
    rw [h.request, entryAt_above (by omega)]
    rw [LogView.lastIndex] at hlast
    exact ⟨_, List.getElem?_eq_getElem (by omega)⟩
  rw [h.stored.new h.follower.2 h.follower.1, ← h.request, hy]
  apply merge_at hy
  intro x hx hterm
  rw [h.old] at hx
  rw [h.request] at hy
  exact hmatch.same hx hy hterm

/-- Up to the previous entry the logs have matched before. -/
theorem Acknowledged.front (h : Acknowledged l v w req) (hmatch : LogsMatch l v) {i : ℕ}
    (hpos : 0 < i) (hi : i ≤ req.prevLogIndex) (hv : v.snapshotIndex ≤ i)
    (hl : l.snapshotIndex ≤ i) : v.termAt i = l.termAt i ∧
      (v.snapshotIndex < i → l.snapshotIndex < i → entryAt v i = entryAt l i) := by
  obtain ⟨hknown, hfound⟩ := h.known (by omega)
  have hmatched := hmatch _ _ hknown hfound i hi
  have hlead := h.lead.2
  have hfollower := h.follower.2
  obtain ⟨a, ha⟩ := termAt_known (v := v) hpos hv (by omega)
  obtain ⟨b, hb⟩ := termAt_known (v := l) hpos hl (by omega)
  refine ⟨by rw [ha, hb, hmatched.1 b a hb ha], ?_⟩
  intro hv' hl'
  rw [termAt_entryAt hv'] at ha
  rw [termAt_entryAt hl'] at hb
  obtain ⟨x, hx, _⟩ := Option.map_eq_some_iff.mp ha
  obtain ⟨y, hy, _⟩ := Option.map_eq_some_iff.mp hb
  rw [hx, hy, hmatched.2 y x hy hx]

theorem Acknowledged.entryAt (h : Acknowledged l v w req) (hmatch : LogsMatch l v) {i : ℕ}
    (hl : l.snapshotIndex < i) (hw : w.snapshotIndex < i) (hlast : i ≤ l.lastIndex) :
    entryAt w i = entryAt l i := by
  rw [h.stored.snapshotIndex] at hw
  by_cases hi : i ≤ req.prevLogIndex
  · rw [(h.stored.old h.follower.2 hi).1]
    exact (h.front hmatch (by omega) hi (by omega) (by omega)).2 hw hl
  · exact h.past hmatch (by omega) hlast

theorem Acknowledged.termAt (h : Acknowledged l v w req) (hmatch : LogsMatch l v) {i : ℕ}
    (hl : l.snapshotIndex ≤ i) (hw : w.snapshotIndex ≤ i) (hlast : i ≤ l.lastIndex) :
    w.termAt i = l.termAt i := by
  rw [h.stored.snapshotIndex] at hw
  by_cases hzero : i = 0
  · rw [hzero]
    rfl
  by_cases hi : i ≤ req.prevLogIndex
  · rw [(h.stored.old h.follower.2 hi).2]
    exact (h.front hmatch (by omega) hi hw hl).1
  · have hlow := h.lead.1
    have hpoint := h.follower.1
    have hw' : w.snapshotIndex < i := by
      rw [h.stored.snapshotIndex]
      omega
    rw [termAt_entryAt hw', h.past hmatch (by omega) hlast,
      termAt_entryAt (by omega)]

end

section

variable [Crc32]

/-- A previous entry beyond the leader's log has term 0, which no log has. -/
theorem acknowledged_of_success {l n : Node} {peer : NodeId} {req : AppendEntriesRequest}
    (hl : l.log.toLogView.Contiguous) (hn : WellFormed n.log.toLogView)
    (hnext : l.log.snapshotIndex ≤ nextFor l peer - 1)
    (hreq : req = l.buildAppendEntriesFor peer l.log.lastIndex)
    (hpoint : n.log.snapshotIndex ≤ req.prevLogIndex) (hwal : Takes n req.entries)
    (hyes : (n.onAppendEntries req).1.success = true) :
    Acknowledged l.log.toLogView n.log.toLogView (n.onAppendEntries req).2.log.toLogView
      req := by
  obtain ⟨hsuccess, hview, _⟩ := onAppendEntries_view hwal
  have hpass := hsuccess.mp hyes
  rw [hview hpass]
  have hprev : req.prevLogIndex = nextFor l peer - 1 := by
    rw [hreq]
    rfl
  have hentries := build_entries hl peer
  rw [← hreq, ← hprev] at hentries
  have hlow : l.log.snapshotIndex ≤ req.prevLogIndex := by omega
  have hlead : req.prevLogIndex ≤ l.log.lastIndex := by
    by_contra hout
    have hnone : l.log.termAt req.prevLogIndex = none :=
      termAt_beyond (Nat.lt_of_not_le hout)
    have hterm : req.prevLogTerm = (l.log.termAt req.prevLogIndex).getD 0 := by
      rw [hprev, hreq]
      rfl
    have hfound := hpass.2 (by omega)
    rw [hterm, hnone] at hfound
    have := hn.pos hfound
    simp at this
  have hlast : req.prevLogIndex ≤ n.log.lastIndex := by
    by_cases hpos : 0 < req.prevLogIndex
    · exact termAt_le_last (hpass.2 hpos)
    · omega
  have hes : Consecutive (req.prevLogIndex + 1) req.entries := by
    rw [hentries]
    have := (contiguous_consecutive hl).drop (req.prevLogIndex - l.log.snapshotIndex)
    rwa [show l.log.snapshotIndex + 1 + (req.prevLogIndex - l.log.snapshotIndex) =
      req.prevLogIndex + 1 by omega] at this
  refine ⟨⟨hlow, hlead⟩, ⟨hpoint, hlast⟩, hentries, hes, ?_,
    stored_of_storeAll hpoint hlast hes⟩
  intro hpos
  refine ⟨?_, hpass.2 hpos⟩
  rw [hprev] at hpos hlead ⊢
  rw [hreq]
  exact build_prevTerm hpos hnext hlead

/-- Whenever the follower acknowledges the request that the leader builds, its log has
the leader's entries, and nothing else has changed without need. -/
theorem success_makes_logs_agree {l n : Node} {peer : NodeId} {req : AppendEntriesRequest}
    (hl : WellFormed l.log.toLogView) (hn : WellFormed n.log.toLogView)
    (hmatch : LogsMatch l.log.toLogView n.log.toLogView)
    (hnext : l.log.snapshotIndex < nextFor l peer)
    (hreq : req = l.buildAppendEntriesFor peer l.log.lastIndex)
    (hpoint : n.log.snapshotIndex ≤ req.prevLogIndex) (hwal : Takes n req.entries)
    (hyes : (n.onAppendEntries req).1.success = true) :
    Agreed l.log.toLogView n.log.toLogView (n.onAppendEntries req).2.log.toLogView req := by
  have hack := acknowledged_of_success hl.contiguous hn (Nat.le_sub_one_of_lt hnext) hreq
    hpoint hwal hyes
  have hst := hack.stored
  obtain ⟨_, hlast⟩ := hack.follower
  constructor
  · intro i
    exact hack.termAt hmatch
  · intro i
    exact hack.entryAt hmatch
  · refine ⟨hst.contiguous hn.contiguous hack.consecutive hlast hpoint, ?_, ?_⟩
    · intro e he
      rcases hst.mem he with he | he
      · exact hn.terms e he
      · rw [hack.entries] at he
        exact hl.terms e (List.mem_of_mem_drop he)
    · rw [hst.snapshotIndex, hst.snapshotTerm]
      exact hn.snapshotTerm
  · exact logsMatch_of_equal (fun i => hack.termAt hmatch) (fun i => hack.entryAt hmatch)
  · intro i hi
    exact hst.old hlast hi
  · intro x hx _ hlost
    exact hst.lost hn.contiguous hack.consecutive hpoint hx hlost

end

/-- A follower with two entries of a term of its own takes the leader's entry in their
place. -/
theorem success_makes_logs_agree_conflict :
    ∃ (l n : Node) (req : AppendEntriesRequest),
      req = l.buildAppendEntriesFor "n2" l.log.lastIndex ∧
      l.log.entries = [⟨1, 1, [5]⟩, ⟨3, 2, [6]⟩] ∧
      n.log.entries = [⟨1, 1, [5]⟩, ⟨2, 2, [8]⟩, ⟨2, 3, [9]⟩] ∧
      (@Node.onAppendEntries ieee n req).2.log.entries = [⟨1, 1, [5]⟩, ⟨3, 2, [6]⟩] ∧
      Agreed l.log.toLogView n.log.toLogView
        (@Node.onAppendEntries ieee n req).2.log.toLogView req := by
  let _ : Crc32 := ieee
  obtain ⟨wal, hwal⟩ := new_wal_takes
  let v : LogView := ⟨[⟨1, 1, [5]⟩, ⟨3, 2, [6]⟩], 0, 0⟩
  let w : LogView := ⟨[⟨1, 1, [5]⟩, ⟨2, 2, [8]⟩, ⟨2, 3, [9]⟩], 0, 0⟩
  let l : Node := { bare 3 v wal with nextIndex := fun _ => some 2 }
  let n : Node := bare 2 w wal
  let req : AppendEntriesRequest := ⟨3, "n1", 1, 1, [⟨3, 2, [6]⟩], 0⟩
  have hreq : req = l.buildAppendEntriesFor "n2" l.log.lastIndex := rfl
  have hl : WellFormed v :=
    ⟨(LogView.Contiguous.empty.push 1 [5]).push 3 [6], by decide, fun h => absurd h (lt_irrefl 0)⟩
  have hn : WellFormed w :=
    ⟨((LogView.Contiguous.empty.push 1 [5]).push 2 [8]).push 2 [9], by decide,
      fun h => absurd h (lt_irrefl 0)⟩
  have hmatch : LogsMatch v w := by
    intro j t hj hj' k hk
    have hlast : j ≤ 2 := termAt_le_last hj
    -- index 2 conflicts
    have hpoint : j ≠ 2 := by
      rintro rfl
      cases hj
      cases hj'
    constructor
    · intro a b ha hb
      have hpos := (termAt_some_bounds ha).1
      obtain rfl : k = 1 := by omega
      exact Option.some.inj (ha.symm.trans hb)
    · intro x y hx hy
      have hpos : 0 < k := (entryAt_bounds hx).1
      obtain rfl : k = 1 := by omega
      exact Option.some.inj (hx.symm.trans hy)
  have htakes : Takes n req.entries :=
    hwal n rfl hn.contiguous _ (by decide) (fun e he => by
      obtain rfl := List.mem_singleton.mp he
      exact fitsSegment_byte 6)
  have hterm : 2 ≤ 3 := by decide
  have hpass : Passes n req := ⟨hterm, fun _ => rfl⟩
  obtain ⟨hsuccess, hview, _⟩ := onAppendEntries_view htakes
  have hstored : (n.onAppendEntries req).2.log.entries = [⟨1, 1, [5]⟩, ⟨3, 2, [6]⟩] := by
    rw [hview hpass]
    rfl
  have hnext : l.log.snapshotIndex < nextFor l "n2" := by
    show 0 < 2
    decide
  exact ⟨l, n, req, hreq, rfl, rfl, hstored, success_makes_logs_agree hl hn hmatch hnext hreq
    (Nat.zero_le 1) htakes (hsuccess.mpr hpass)⟩

end RaftNodeAgreement
