import DistributedWal.RaftNodeAgreement

/-! # Requests out of order

Two requests that one leader makes in one term carry logs of which one continues the
other. A follower that acknowledges a request has all of the log that it carries, and
keeps its own log if that continues it already; so the order of arrival does not matter.
-/
namespace RaftNodeReordering

open LittleEndianCodec WalSegment WalEngine WalContents ReplicatedLog ReplicatedLogContents
open WalEntry (Crc32 ieee WalError)
open RaftPersistentState RaftSnapshot RaftNode RaftNodeHandlers RaftNodeLogs RaftNodeAppends
open RaftNodeAgreement FullLog LogMatching LogMerge

/-- A leader whose log, with its compacted entries, is `p`. -/
structure LeaderLog (l : Node) (p : List LogEntry) : Prop where
  represents : Represents l.log.toLogView p
  terms : ∀ e ∈ p, 1 ≤ e.term
  commit : l.commitIndex ≤ l.log.lastIndex

/-- The AppendEntries requests of a leader: from a write, up to its new entry, or from a
heartbeat. -/
inductive Sends (l : Node) : AppendEntriesRequest → Prop where
  | replication {peer : NodeId} {req : AppendEntriesRequest}
      (hnew : l.log.snapshotIndex < l.log.lastIndex)
      (h : (peer, req) ∈ l.appendCalls l.log.lastIndex) : Sends l req
  | heartbeat : Sends l l.heartbeat

/-- The entries behind no previous entry start at index 1. -/
def Gapless (req : AppendEntriesRequest) : Prop :=
  req.prevLogIndex = 0 → ∀ e, req.entries.head? = some e → e.index = 1

/-- Log matching of a log with the log of the leader. -/
def MatchesLog (v : LogView) (p : List LogEntry) : Prop :=
  ∀ j t, v.termAt j = some t → p[j - 1]?.map LogEntry.term = some t → ∀ k ≤ j,
    (∀ a b, v.termAt k = some a → p[k - 1]?.map LogEntry.term = some b → a = b) ∧
    ∀ x y, entryAt v k = some x → p[k - 1]? = some y → x = y

/-- The request carries the log `p` from its previous entry on. -/
structure Brings (req : AppendEntriesRequest) (p : List LogEntry) : Prop where
  commit : req.leaderCommit ≤ p.length
  prev : req.prevLogIndex ≤ p.length
  entries : req.entries = p.drop req.prevLogIndex
  prevTerm : 0 < req.prevLogIndex →
    p[req.prevLogIndex - 1]?.map LogEntry.term = some req.prevLogTerm

theorem LeaderLog.build_entries {l : Node} {p : List LogEntry} (hl : LeaderLog l p)
    (peer : NodeId) : (l.buildAppendEntriesFor peer l.log.lastIndex).entries =
      p.drop (max (nextFor l peer - 1) l.log.snapshotIndex) := by
  have hentries : (l.buildAppendEntriesFor peer l.log.lastIndex).entries =
      (l.log.entriesFrom (nextFor l peer)).filter (fun e => e.index ≤ l.log.lastIndex) := rfl
  rw [hentries, hl.represents.entriesFrom, hl.represents.numbered.filter_le,
    hl.represents.lastIndex, List.take_length]

/-- A request without a gap brings the leader's log, or asks for an entry of term 0. -/
theorem Sends.brings {l : Node} {p : List LogEntry} {req : AppendEntriesRequest}
    (h : Sends l req) (hl : LeaderLog l p) (hgapless : Gapless req) :
    Brings req p ∨ 0 < req.prevLogIndex ∧ req.prevLogTerm = 0 := by
  have hlast := hl.represents.lastIndex
  have hpoint := hl.represents.point
  have hcommit := hl.commit
  cases h with
  | heartbeat =>
    left
    refine ⟨?_, ?_, ?_, ?_⟩
    · exact hlast ▸ hcommit
    · exact Nat.le_of_eq hlast
    · symm
      apply List.drop_eq_nil_of_le
      exact Nat.le_of_eq hlast.symm
    · intro hpos
      have hpos : 0 < l.log.lastIndex := hpos
      have hterm : l.heartbeat.prevLogTerm = lastTermOf p := hl.represents.lastTerm
      have hprev : l.heartbeat.prevLogIndex = p.length := hlast
      rw [hterm, hprev]
      rw [hlast] at hpos
      have he := List.getElem?_eq_getElem (l := p) (i := p.length - 1) (by omega)
      have hlastTerm := lastTermOf_take he
      rw [Nat.sub_add_cancel hpos, List.take_length] at hlastTerm
      rw [he, hlastTerm]
      rfl
  | @replication peer req hnew h =>
    obtain ⟨q, hq, heq⟩ := List.mem_map.mp h
    obtain ⟨rfl, rfl⟩ := Prod.mk.inj heq
    rcases Nat.lt_or_ge (nextFor l q - 1) l.log.snapshotIndex with hlow | hnext
    · right
      by_cases hpos : 0 < nextFor l q - 1
      · have hterm : (l.buildAppendEntriesFor q l.log.lastIndex).prevLogTerm =
            (l.log.termAt (nextFor l q - 1)).getD 0 := rfl
        refine ⟨hpos, ?_⟩
        rw [hterm, LogView.termAt, if_neg (by omega), if_neg (by omega), if_pos hlow]
        rfl
      · -- the first entry is the one behind the snapshot point
        exfalso
        have hin : l.log.snapshotIndex < p.length := hlast ▸ hnew
        have hhead := hgapless (by rw [build_prev]; omega) p[l.log.snapshotIndex]
          (by rw [hl.build_entries, Nat.max_eq_right (Nat.le_of_lt hlow), List.head?_drop,
            List.getElem?_eq_getElem hin])
        have hindex := hl.represents.numbered _ _ (List.getElem?_eq_getElem hin)
        omega
    by_cases hout : nextFor l q - 1 ≤ l.log.lastIndex
    · left
      refine ⟨?_, ?_, ?_, ?_⟩
      · exact hlast ▸ hcommit
      · rw [build_prev, ← hlast]
        exact hout
      · rw [build_prev, hl.build_entries, Nat.max_eq_left hnext]
      · intro hpos
        rw [build_prev] at hpos ⊢
        rw [← build_prevTerm hpos (by omega) hout, hl.represents.termAt hpos hnext]
    · right
      refine ⟨by rw [build_prev]; omega, ?_⟩
      have hterm : (l.buildAppendEntriesFor q l.log.lastIndex).prevLogTerm =
          (l.log.termAt (nextFor l q - 1)).getD 0 := rfl
      rw [hterm, termAt_beyond (Nat.lt_of_not_le hout)]
      rfl

theorem Sends.entries {l : Node} {p : List LogEntry} {req : AppendEntriesRequest}
    (h : Sends l req) (hl : LeaderLog l p) :
    req.entries.length ≤ p.length ∧ ∀ e ∈ req.entries, e ∈ p := by
  cases h with
  | heartbeat => exact ⟨Nat.zero_le _, fun e he => absurd he List.not_mem_nil⟩
  | @replication peer req _ h =>
    obtain ⟨q, _, heq⟩ := List.mem_map.mp h
    obtain ⟨rfl, rfl⟩ := Prod.mk.inj heq
    rw [hl.build_entries]
    refine ⟨?_, fun e he => List.mem_of_mem_drop he⟩
    rw [List.length_drop]
    exact Nat.sub_le _ _

/-- A request with a gap carries the log behind the snapshot point, but nothing before it. -/
theorem Sends.gap {l : Node} {p : List LogEntry} {req : AppendEntriesRequest}
    (h : Sends l req) (hl : LeaderLog l p) (hgap : ¬ Gapless req) :
    req.prevLogIndex = 0 ∧ 0 < l.log.snapshotIndex ∧ req.entries ≠ [] ∧
      Consecutive (l.log.snapshotIndex + 1) req.entries := by
  obtain ⟨hprev, hfirst⟩ := Classical.not_imp.mp hgap
  obtain ⟨e, hhead, hindex⟩ : ∃ e, req.entries.head? = some e ∧ e.index ≠ 1 := by
    simpa only [not_forall, exists_prop] using hfirst
  have hne : req.entries ≠ [] := by
    intro hnil
    rw [hnil] at hhead
    cases hhead
  cases h with
  | heartbeat => exact absurd rfl hne
  | @replication peer req _ h =>
    obtain ⟨q, _, heq⟩ := List.mem_map.mp h
    obtain ⟨rfl, rfl⟩ := Prod.mk.inj heq
    rw [build_prev] at hprev
    have hentries := hl.build_entries q
    rw [hprev, Nat.zero_max] at hentries
    have hes : Consecutive (l.log.snapshotIndex + 1)
        (l.buildAppendEntriesFor q l.log.lastIndex).entries := by
      intro k x hx
      rw [hentries, List.getElem?_drop] at hx
      have := hl.represents.numbered _ x hx
      omega
    refine ⟨hprev, ?_, hne, hes⟩
    rw [List.head?_eq_getElem?] at hhead
    have := hes 0 e hhead
    omega

/-- Behind a log that ends one entry before the gap, the first delivery puts the entries one
place too low, and the second adds the last one again. -/
theorem storeAll_twice {v : LogView} {i : ℕ} {entries : List LogEntry} (hne : entries ≠ [])
    (hpoint : v.snapshotIndex < i) (hgap : v.lastIndex + 2 = i)
    (hes : Consecutive i entries) :
    storeAll (storeAll v entries) entries ≠ storeAll v entries := by
  have hlast := storeAll_gap (v := v) (by omega) hes
  have hlen := List.length_pos_iff.mpr hne
  intro heq
  have hreach := storeAll_reaches (v := storeAll v entries)
    (by rw [storeAll_snapshotIndex]; exact hpoint) (by rw [hlast]; omega) hes
  rw [heq, hlast] at hreach
  omega

/-- A log that knows what the leader's log knows at its indices. -/
theorem matchesLog_of_equal {v : LogView} {p : List LogEntry}
    (hterms : ∀ k a, v.termAt k = some a → ∀ b, p[k - 1]?.map LogEntry.term = some b → a = b)
    (hentries : ∀ k x, entryAt v k = some x → ∀ y, p[k - 1]? = some y → x = y) :
    MatchesLog v p :=
  fun _ _ _ _ k _ => ⟨fun a b ha hb => hterms k a ha b hb, fun x y hx hy => hentries k x hx y hy⟩

theorem MatchesLog.of_prefix {v : LogView} {p q : List LogEntry} (h : MatchesLog v q)
    (hp : p <+: q) : MatchesLog v p := by
  have hgrow : ∀ k b, p[k - 1]?.map LogEntry.term = some b →
      q[k - 1]?.map LogEntry.term = some b := by
    intro k b hb
    obtain ⟨y, hy, rfl⟩ := Option.map_eq_some_iff.mp hb
    rw [prefix_getElem? hp hy]
    rfl
  intro j t hj hpj k hk
  obtain ⟨hterms, hentries⟩ := h j t hj (hgrow j t hpj) k hk
  refine ⟨fun a b ha hb => hterms a b ha (hgrow k b hb), ?_⟩
  intro x y hx hy
  exact hentries x y hx (prefix_getElem? hp hy)

/-- The follower's log after a request that brings `p`: `p` itself, unless the follower
has all of it. -/
structure Taken (v w : LogView) (p : List LogEntry) : Prop where
  snapshotIndex : w.snapshotIndex = v.snapshotIndex
  snapshotTerm : w.snapshotTerm = v.snapshotTerm
  entries : p.drop v.snapshotIndex <+: v.entries ∧ w.entries = v.entries ∨
    ¬ p.drop v.snapshotIndex <+: v.entries ∧ w.entries = p.drop v.snapshotIndex

theorem Taken.front {v w : LogView} {p : List LogEntry} (h : Taken v w p) :
    p.drop v.snapshotIndex <+: w.entries := by
  rcases h.entries with ⟨hpre, heq⟩ | ⟨_, heq⟩
  · rw [heq]
    exact hpre
  · rw [heq]

theorem Taken.lastIndex {v w : LogView} {p : List LogEntry} (h : Taken v w p) :
    p.length ≤ w.lastIndex := by
  have hlen := h.front.length_le
  rw [List.length_drop] at hlen
  rw [LogView.lastIndex, h.snapshotIndex]
  omega

/-- The entries up to the previous one are the leader's. -/
theorem front_eq {v : LogView} {p : List LogEntry} {prev : ℕ} (hmatch : MatchesLog v p)
    (hfound : 0 < prev → ∃ t, v.termAt prev = some t ∧ p[prev - 1]?.map LogEntry.term = some t)
    (hlen : prev ≤ p.length) (hlast : prev ≤ v.lastIndex) (hpoint : v.snapshotIndex ≤ prev) :
    v.entries.take (prev - v.snapshotIndex) =
      (p.drop v.snapshotIndex).take (prev - v.snapshotIndex) := by
  rw [LogView.lastIndex] at hlast
  apply List.ext_getElem?
  intro k
  by_cases hk : k < prev - v.snapshotIndex
  · rw [List.getElem?_take_of_lt hk, List.getElem?_take_of_lt hk, List.getElem?_drop]
    obtain ⟨t, hv, hp⟩ := hfound (by omega)
    have hx := List.getElem?_eq_getElem (l := v.entries) (i := k) (by omega)
    have hy := List.getElem?_eq_getElem (l := p) (i := v.snapshotIndex + k) (by omega)
    rw [hx, hy]
    have hindex : entryAt v (v.snapshotIndex + k + 1) = some v.entries[k] := by
      rw [entryAt_above (by omega), ← hx]
      congr 1
      omega
    exact congrArg some ((hmatch prev t hv hp _ (by omega)).2 _ _ hindex hy)
  · rw [List.getElem?_eq_none (by rw [List.length_take]; omega),
      List.getElem?_eq_none (by rw [List.length_take]; omega)]

theorem Taken.matchesLog {v w : LogView} {p q : List LogEntry} {prev : ℕ} (h : Taken v w p)
    (hmatch : MatchesLog v q) (hpq : p <+: q) (hpoint : v.snapshotIndex ≤ prev)
    (hfound : 0 < prev → ∃ t, v.termAt prev = some t ∧ q[prev - 1]?.map LogEntry.term = some t) :
    MatchesLog w q := by
  rcases h.entries with ⟨_, heq⟩ | ⟨_, heq⟩
  · have hsame : w = v := by
      cases v
      cases w
      simp only [LogView.mk.injEq]
      exact ⟨heq, h.snapshotIndex, h.snapshotTerm⟩
    rw [hsame]
    exact hmatch
  · have hentry : ∀ k x, entryAt w k = some x → q[k - 1]? = some x := by
      intro k x hx
      have hk := (entryAt_bounds hx).1
      rw [entryAt_above hk, heq, List.getElem?_drop] at hx
      rw [h.snapshotIndex] at hk hx
      rw [show v.snapshotIndex + (k - v.snapshotIndex - 1) = k - 1 by omega] at hx
      exact prefix_getElem? hpq hx
    apply matchesLog_of_equal
    · intro k a ha b hb
      obtain ⟨hpos, hk⟩ := termAt_some_bounds ha
      by_cases habove : w.snapshotIndex < k
      · rw [termAt_entryAt habove] at ha
        obtain ⟨x, hx, rfl⟩ := Option.map_eq_some_iff.mp ha
        rw [hentry k x hx] at hb
        exact Option.some.inj hb
      · -- the snapshot point is known on both sides
        rw [h.snapshotIndex] at habove hk
        obtain ⟨t, hv, hq⟩ := hfound (by omega)
        rw [termAt_hidden h.snapshotIndex h.snapshotTerm (by omega)] at ha
        exact (hmatch prev t hv hq k (by omega)).1 a b ha hb
    · intro k x hx y hy
      rw [hentry k x hx] at hy
      exact Option.some.inj hy

theorem Taken.wellFormed {v w : LogView} {p : List LogEntry} (h : Taken v w p)
    (hv : WellFormed v) (hp : Numbered p) (hterms : ∀ e ∈ p, 1 ≤ e.term) : WellFormed w := by
  rcases h.entries with ⟨_, heq⟩ | ⟨_, heq⟩
  · refine ⟨?_, heq ▸ hv.terms, ?_⟩
    · intro k e he
      rw [h.snapshotIndex]
      rw [heq] at he
      exact hv.contiguous k e he
    · rw [h.snapshotIndex, h.snapshotTerm]
      exact hv.snapshotTerm
  · refine ⟨?_, ?_, ?_⟩
    · intro k e he
      rw [heq, List.getElem?_drop] at he
      rw [h.snapshotIndex]
      have := hp _ e he
      omega
    · intro e he
      rw [heq] at he
      exact hterms e (List.mem_of_mem_drop he)
    · rw [h.snapshotIndex, h.snapshotTerm]
      exact hv.snapshotTerm

/-- A follower that has all of `p` stays as it is. -/
theorem Taken.again {v w x : LogView} {p q : List LogEntry} (h : Taken v w q)
    (h' : Taken w x p) (hpq : p <+: q) : x = w := by
  have hfront : p.drop w.snapshotIndex <+: w.entries := by
    rw [h.snapshotIndex]
    exact (hpq.drop _).trans h.front
  rcases h'.entries with ⟨_, heq⟩ | ⟨hnot, _⟩
  · cases w
    cases x
    simp only [LogView.mk.injEq]
    exact ⟨heq, h'.snapshotIndex, h'.snapshotTerm⟩
  · exact absurd hfront hnot

/-- A log that continues `p` is what counts, with or without `p` before it. -/
theorem Taken.after {v w x y : LogView} {p q : List LogEntry} (hpq : p <+: q)
    (hp : Taken v w p) (hq : Taken w x q) (hq' : Taken v y q) : x = y := by
  have hdrop := hpq.drop v.snapshotIndex
  have hentries : x.entries = y.entries := by
    have hx := hq.entries
    rw [hp.snapshotIndex] at hx
    rcases hq'.entries with ⟨hall, hy⟩ | ⟨hnot, hy⟩
    · have hw : w.entries = v.entries := by
        rcases hp.entries with ⟨_, hw⟩ | ⟨hno, _⟩
        · exact hw
        · exact absurd (hdrop.trans hall) hno
      rw [hw] at hx
      rcases hx with ⟨_, hx⟩ | ⟨hno, _⟩
      · rw [hx, hy]
      · exact absurd hall hno
    · rcases hx with ⟨hall, hx⟩ | ⟨_, hx⟩
      · rcases hp.entries with ⟨_, hw⟩ | ⟨_, hw⟩
        · rw [hw] at hall
          exact absurd hall hnot
        · rw [hw] at hall hx
          rw [hx, hy]
          exact hdrop.eq_of_length_le hall.length_le
      · rw [hx, hy]
  cases x
  cases y
  simp only [LogView.mk.injEq]
  exact ⟨hentries, (hq.snapshotIndex.trans hp.snapshotIndex).trans hq'.snapshotIndex.symm,
    (hq.snapshotTerm.trans hp.snapshotTerm).trans hq'.snapshotTerm.symm⟩

section

variable [Crc32] {n : Node} {req : AppendEntriesRequest} {p : List LogEntry}

theorem taken_of_success (hb : Brings req p) (hp : Numbered p)
    (hmatch : MatchesLog n.log.toLogView p) (hpoint : n.log.snapshotIndex ≤ req.prevLogIndex)
    (hwal : Takes n req.entries) (hpass : Passes n req) :
    Taken n.log.toLogView (n.onAppendEntries req).2.log.toLogView p := by
  obtain ⟨_, hview, _⟩ := onAppendEntries_view hwal
  rw [hview hpass]
  have hlast : req.prevLogIndex ≤ n.log.lastIndex := by
    by_cases hpos : 0 < req.prevLogIndex
    · exact termAt_le_last (hpass.2 hpos)
    · omega
  have hes : Consecutive (req.prevLogIndex + 1) req.entries := by
    intro k e he
    rw [hb.entries, List.getElem?_drop] at he
    have := hp _ e he
    omega
  have hst := stored_of_storeAll hpoint hlast hes
  set k := req.prevLogIndex - n.log.snapshotIndex with hk
  have hfront := front_eq hmatch (fun hpos => ⟨_, hpass.2 hpos, hb.prevTerm hpos⟩) hb.prev
    hlast hpoint
  have hback : (p.drop n.log.snapshotIndex).drop k = req.entries := by
    rw [hb.entries, List.drop_drop]
    congr 1
    omega
  have hsplit : p.drop n.log.snapshotIndex = n.log.entries.take k ++ req.entries := by
    rw [hfront, ← hback, List.take_append_drop]
  have hcompat : Compatible LogEntry.term (n.log.entries.drop k) req.entries := by
    intro q x y hx hy hterm
    rw [hb.entries, List.getElem?_drop] at hy
    rw [List.getElem?_drop] at hx
    have hx' : entryAt n.log.toLogView (req.prevLogIndex + q + 1) = some x := by
      rw [entryAt_above (by omega), ← hx]
      congr 1
      omega
    have hv : n.log.termAt (req.prevLogIndex + q + 1) = some y.term := by
      rw [termAt_entryAt (by omega), hx', ← hterm]
      rfl
    have hpy : p[req.prevLogIndex + q + 1 - 1]? = some y := hy
    exact (hmatch _ _ hv (by rw [hpy]; rfl) _ le_rfl).2 x y hx' hpy
  have hkeep := List.take_append_drop k n.log.entries
  refine ⟨hst.snapshotIndex, hst.snapshotTerm, ?_⟩
  rcases merge_of_compatible hcompat with ⟨hpre, heq⟩ | ⟨hpre, heq⟩
  · left
    refine ⟨?_, by rw [hst.entries, heq, hkeep]⟩
    rw [hsplit]
    conv_rhs => rw [← hkeep]
    exact (List.prefix_append_right_inj _).mpr hpre
  · right
    refine ⟨?_, by rw [hst.entries, heq, hsplit]⟩
    rw [hsplit]
    intro hall
    conv_rhs at hall => rw [← hkeep]
    exact hpre ((List.prefix_append_right_inj _).mp hall)

/-- The follower after the request, and whether it acknowledges it. -/
def deliver (n : Node) (req : AppendEntriesRequest) : Node := (n.onAppendEntries req).2

def Acked (n : Node) (req : AppendEntriesRequest) : Prop :=
  (n.onAppendEntries req).1.success = true

theorem commit_of_success (hpass : Passes n req)
    (hall : req.leaderCommit ≤ (deliver n req).log.lastIndex) :
    (deliver n req).commitIndex = max n.commitIndex req.leaderCommit := by
  rw [deliver] at hall ⊢
  obtain ⟨_, ⟨hnot, _⟩ | ⟨_, _, hn⟩⟩ := onAppendEntries_cases n req
  · exact absurd hpass hnot
  · rw [hn] at hall ⊢
    dsimp only at hall ⊢
    by_cases hgt : req.leaderCommit > n.commitIndex
    · rw [if_pos hgt, Nat.min_eq_left hall, Nat.max_eq_right (Nat.le_of_lt hgt)]
    · rw [if_neg hgt, Nat.max_eq_left (Nat.not_lt.mp hgt)]

/-- What a delivery that is acknowledged does. -/
structure Delivered (n : Node) (req : AppendEntriesRequest) (p : List LogEntry) : Prop where
  brings : Brings req p
  passes : Passes n req
  taken : Taken n.log.toLogView (deliver n req).log.toLogView p
  commit : (deliver n req).commitIndex = max n.commitIndex req.leaderCommit

theorem delivered {l : Node} (hl : LeaderLog l p) (hs : Sends l req) (hgapless : Gapless req)
    (hn : WellFormed n.log.toLogView) (hmatch : MatchesLog n.log.toLogView p)
    (hpoint : n.log.snapshotIndex ≤ req.prevLogIndex) (hwal : Takes n req.entries)
    (hyes : Acked n req) : Delivered n req p := by
  have hpass := (onAppendEntries_view hwal).1.mp hyes
  have hb : Brings req p := by
    rcases hs.brings hl hgapless with hb | ⟨hpos, hzero⟩
    · exact hb
    · have hterm := hpass.2 hpos
      rw [hzero] at hterm
      exact absurd (hn.pos hterm) (by decide)
  have htaken := taken_of_success hb hl.represents.numbered hmatch hpoint hwal hpass
  exact ⟨hb, hpass, htaken, commit_of_success hpass (hb.commit.trans htaken.lastIndex)⟩

theorem Delivered.wellFormed {l : Node} (h : Delivered n req p) (hl : LeaderLog l p)
    (hn : WellFormed n.log.toLogView) : WellFormed (deliver n req).log.toLogView :=
  h.taken.wellFormed hn hl.represents.numbered hl.terms

theorem Delivered.matchesLog {q : List LogEntry} (h : Delivered n req p)
    (hmatch : MatchesLog n.log.toLogView q) (hpq : p <+: q)
    (hpoint : n.log.snapshotIndex ≤ req.prevLogIndex) :
    MatchesLog (deliver n req).log.toLogView q := by
  apply h.taken.matchesLog hmatch hpq hpoint
  intro hpos
  refine ⟨_, h.passes.2 hpos, ?_⟩
  obtain ⟨y, hy, hterm⟩ := Option.map_eq_some_iff.mp (h.brings.prevTerm hpos)
  rw [prefix_getElem? hpq hy, ← hterm]
  rfl

theorem Delivered.point (h : Delivered n req p) :
    (deliver n req).log.snapshotIndex = n.log.snapshotIndex := h.taken.snapshotIndex

/-- Two nodes with the same log in memory and the same commit index. -/
def Same (n m : Node) : Prop :=
  n.log.toLogView = m.log.toLogView ∧ n.commitIndex = m.commitIndex

/-- The order of the two requests, and a request that comes twice, make no difference to the
log and the commit index of any follower that matches the log `p`. -/
def Commute (p : List LogEntry) (r₁ r₂ : AppendEntriesRequest) : Prop :=
  ∀ n : Node, WellFormed n.log.toLogView → MatchesLog n.log.toLogView p →
    n.log.snapshotIndex ≤ r₁.prevLogIndex → n.log.snapshotIndex ≤ r₂.prevLogIndex →
    (∀ r ∈ [r₁, r₂], ∀ r' ∈ [r₁, r₂], Takes n (r.entries ++ r'.entries)) →
    (Acked n r₁ → Acked (deliver n r₁) r₂ → Acked n r₂ → Acked (deliver n r₂) r₁ →
      Same (deliver (deliver n r₁) r₂) (deliver (deliver n r₂) r₁)) ∧
    ∀ r ∈ [r₁, r₂], Acked n r → Same (deliver (deliver n r) r) (deliver n r)

/-- A second delivery right after the first. -/
theorem redelivered {l : Node} (hl : LeaderLog l p) (hs : Sends l req) (hgapless : Gapless req)
    (hn : WellFormed n.log.toLogView) (hmatch : MatchesLog n.log.toLogView p)
    (hpoint : n.log.snapshotIndex ≤ req.prevLogIndex)
    (hwal : Takes n (req.entries ++ req.entries)) (hyes : Acked n req) :
    Same (deliver (deliver n req) req) (deliver n req) := by
  have d := delivered hl hs hgapless hn hmatch hpoint hwal.front hyes
  have htwice := onAppendEntries_takes hwal
  obtain ⟨hsuccess, _, hrefused⟩ := onAppendEntries_view htwice
  by_cases hpass : Passes (deliver n req) req
  · have d' := delivered hl hs hgapless (d.wellFormed hl hn)
      (d.matchesLog hmatch (List.prefix_refl _) hpoint) (by rw [d.point]; exact hpoint)
      htwice (hsuccess.mpr hpass)
    refine ⟨d.taken.again d'.taken (List.prefix_refl _), ?_⟩
    rw [d'.commit, d.commit, Nat.max_assoc, Nat.max_self]
  · obtain ⟨hlog, hcommit⟩ := hrefused hpass
    exact ⟨congrArg RaftLog.toLogView hlog, hcommit⟩

theorem commute_of_gapless {l₁ l₂ : Node} {p₁ p₂ : List LogEntry}
    {r₁ r₂ : AppendEntriesRequest} (h₁ : LeaderLog l₁ p₁) (h₂ : LeaderLog l₂ p₂)
    (hgrow : p₁ <+: p₂) (hr₁ : Sends l₁ r₁) (hr₂ : Sends l₂ r₂) (hg₁ : Gapless r₁)
    (hg₂ : Gapless r₂) : Commute p₂ r₁ r₂ := by
  intro n hn hmatch hpoint₁ hpoint₂ hwal
  have hmatch₁ := hmatch.of_prefix hgrow
  have hr₁mem : r₁ ∈ [r₁, r₂] := by simp
  have hr₂mem : r₂ ∈ [r₁, r₂] := by simp
  constructor
  · intro hyes₁ hyes₁₂ hyes₂ hyes₂₁
    have d₁ := delivered h₁ hr₁ hg₁ hn hmatch₁ hpoint₁ (hwal r₁ hr₁mem r₂ hr₂mem).front hyes₁
    have d₂ := delivered h₂ hr₂ hg₂ hn hmatch hpoint₂ (hwal r₂ hr₂mem r₁ hr₁mem).front hyes₂
    have d₁₂ := delivered h₂ hr₂ hg₂ (d₁.wellFormed h₁ hn) (d₁.matchesLog hmatch hgrow hpoint₁)
      (by rw [d₁.point]; exact hpoint₂)
      (onAppendEntries_takes (hwal r₁ hr₁mem r₂ hr₂mem)) hyes₁₂
    have hmatch₂ := d₂.matchesLog hmatch (List.prefix_refl _) hpoint₂
    have d₂₁ := delivered h₁ hr₁ hg₁ (d₂.wellFormed h₂ hn)
      (MatchesLog.of_prefix hmatch₂ hgrow) (by rw [d₂.point]; exact hpoint₁)
      (onAppendEntries_takes (hwal r₂ hr₂mem r₁ hr₁mem)) hyes₂₁
    constructor
    · rw [Taken.after hgrow d₁.taken d₁₂.taken d₂.taken, d₂.taken.again d₂₁.taken hgrow]
    · rw [d₁₂.commit, d₁.commit, d₂₁.commit, d₂.commit, Nat.max_assoc, Nat.max_assoc,
        Nat.max_comm r₁.leaderCommit]
  · intro r hr hyes
    rcases List.mem_pair.mp hr with rfl | rfl
    · exact redelivered h₁ hr₁ hg₁ hn hmatch₁ hpoint₁ (hwal r hr r hr) hyes
    · exact redelivered h₂ hr₂ hg₂ hn hmatch hpoint₂ (hwal r hr r hr) hyes

/-- A follower whose log ends one entry before the leader's snapshot point. -/
theorem changed_of_gap {l : Node} (hl : LeaderLog l p) (hs : Sends l req)
    (hgap : ¬ Gapless req)
    (hview : n.log.toLogView = ⟨p.take (l.log.snapshotIndex - 1), 0, 0⟩)
    (hterm : n.ps.currentTerm ≤ req.term) (hwal : Takes n (req.entries ++ req.entries)) :
    Acked n req ∧ ¬ Same (deliver (deliver n req) req) (deliver n req) := by
  obtain ⟨hprev, hpos, hne, hes⟩ := hs.gap hl hgap
  have hstart : ¬ 0 < req.prevLogIndex := by omega
  have hpass : Passes n req := ⟨hterm, fun h => absurd h hstart⟩
  obtain ⟨hyes, hstored, _⟩ := onAppendEntries_view hwal.front
  obtain ⟨_, hstored₂, _⟩ := onAppendEntries_view (onAppendEntries_takes hwal)
  have hpass₂ : Passes (deliver n req) req := by
    refine ⟨?_, fun h => absurd h hstart⟩
    rw [deliver, onAppendEntries_ps, ← acceptLeader_ps n req.term req.leaderId,
      acceptLeader_currentTerm hterm]
  refine ⟨hyes.mpr hpass, ?_⟩
  rintro ⟨hlog, _⟩
  have hpoint : n.log.snapshotIndex = 0 := congrArg LogView.snapshotIndex hview
  have hlast : n.log.lastIndex + 2 = l.log.snapshotIndex + 1 := by
    have hin := hl.represents.point
    rw [hview, LogView.lastIndex]
    dsimp only
    rw [List.length_take]
    omega
  refine storeAll_twice hne (by omega) hlast hes ?_
  rw [← hstored hpass]
  exact (hstored₂ hpass₂).symm.trans hlog

theorem gapless_of_commute {l : Node} {q : List LogEntry}
    (hl : LeaderLog l p) (hpq : p <+: q) (hs : Sends l req) (hq : Numbered q)
    (hterms : ∀ e ∈ q, 1 ≤ e.term) {r₁ r₂ : AppendEntriesRequest} (hreq : req ∈ [r₁, r₂])
    (hentries : ∀ r ∈ [r₁, r₂], r.entries.length ≤ q.length ∧ ∀ e ∈ r.entries, e ∈ q)
    (hlen : q.length < 2 ^ 61) (hfits : ∀ e ∈ q, FitsSegment e.data)
    (hcommute : Commute q r₁ r₂) : Gapless req := by
  by_contra hgap
  obtain ⟨wal, hwal⟩ := new_wal_takes
  have hshort : p.take (l.log.snapshotIndex - 1) <+: q := (List.take_prefix _ _).trans hpq
  let n : Node := bare 0 ⟨p.take (l.log.snapshotIndex - 1), 0, 0⟩ wal
  have hn : WellFormed n.log.toLogView := by
    refine ⟨?_, ?_, fun h => absurd h (lt_irrefl 0)⟩
    · intro k e he
      have hindex := hq k e (prefix_getElem? hshort he)
      simp only [n, bare]
      omega
    · intro e he
      exact hterms e (hshort.subset he)
  have hmatch : MatchesLog n.log.toLogView q := by
    have hentry : ∀ k x, entryAt n.log.toLogView k = some x → q[k - 1]? = some x := by
      intro k x hx
      rw [entryAt_above (entryAt_bounds hx).1] at hx
      exact prefix_getElem? hshort hx
    apply matchesLog_of_equal
    · intro k a ha b hb
      rw [termAt_entryAt (termAt_some_bounds ha).1] at ha
      obtain ⟨x, hx, rfl⟩ := Option.map_eq_some_iff.mp ha
      rw [hentry k x hx] at hb
      exact Option.some.inj hb
    · intro k x hx y hy
      rw [hentry k x hx] at hy
      exact Option.some.inj hy
  have htakes : ∀ r ∈ [r₁, r₂], ∀ r' ∈ [r₁, r₂], Takes n (r.entries ++ r'.entries) := by
    intro r hr r' hr'
    obtain ⟨hle, hin⟩ := hentries r hr
    obtain ⟨hle', hin'⟩ := hentries r' hr'
    apply hwal n rfl hn.contiguous
    · rw [List.length_append]
      omega
    · intro e he
      rcases List.mem_append.mp he with he | he
      · exact hfits e (hin e he)
      · exact hfits e (hin' e he)
  obtain ⟨hyes, hchanged⟩ := changed_of_gap (n := n) hl hs hgap rfl (Nat.zero_le _)
    (htakes req hreq req hreq)
  exact hchanged ((hcommute n hn hmatch (Nat.zero_le _) (Nat.zero_le _) htakes).2 req hreq hyes)

/-- Two requests of one leader without a gap commute, and each may come twice. A gap makes a
difference at a follower that takes the entries. -/
theorem appends_commute {l₁ l₂ : Node} {p₁ p₂ : List LogEntry}
    {r₁ r₂ : AppendEntriesRequest} (h₁ : LeaderLog l₁ p₁) (h₂ : LeaderLog l₂ p₂)
    (hgrow : p₁ <+: p₂) (hr₁ : Sends l₁ r₁) (hr₂ : Sends l₂ r₂) :
    (Gapless r₁ ∧ Gapless r₂ → Commute p₂ r₁ r₂) ∧
      (p₂.length < 2 ^ 61 → (∀ e ∈ p₂, FitsSegment e.data) →
        (Commute p₂ r₁ r₂ ↔ Gapless r₁ ∧ Gapless r₂)) := by
  have hmake : Gapless r₁ ∧ Gapless r₂ → Commute p₂ r₁ r₂ :=
    fun h => commute_of_gapless h₁ h₂ hgrow hr₁ hr₂ h.1 h.2
  refine ⟨hmake, fun hlen hfits => ⟨fun hcommute => ?_, hmake⟩⟩
  have hentries : ∀ r ∈ [r₁, r₂], r.entries.length ≤ p₂.length ∧ ∀ e ∈ r.entries, e ∈ p₂ := by
    intro r hr
    rcases List.mem_pair.mp hr with rfl | rfl
    · obtain ⟨hle, hin⟩ := hr₁.entries h₁
      exact ⟨hle.trans hgrow.length_le, fun e he => hgrow.subset (hin e he)⟩
    · exact hr₂.entries h₂
  have hgapless : ∀ {l p r}, LeaderLog l p → p <+: p₂ → Sends l r → r ∈ [r₁, r₂] → Gapless r :=
    fun hl hpq hs hr => gapless_of_commute hl hpq hs h₂.represents.numbered h₂.terms hr
      hentries hlen hfits hcommute
  exact ⟨hgapless h₁ hgrow hr₁ (by simp), hgapless h₂ (List.prefix_refl _) hr₂ (by simp)⟩

end

/-- The requests of two writes at a follower with an entry of its own. -/
theorem appends_commute_two_writes :
    ∃ (n : Node) (r₁ r₂ : AppendEntriesRequest), r₁.entries = [⟨2, 1, [7]⟩] ∧
      r₂.entries = [⟨2, 1, [7]⟩, ⟨2, 2, [8]⟩] ∧ n.log.entries = [⟨1, 1, [9]⟩] ∧
      Same (@deliver ieee (@deliver ieee n r₁) r₂) (@deliver ieee (@deliver ieee n r₂) r₁) ∧
      Same (@deliver ieee (@deliver ieee n r₁) r₁) (@deliver ieee n r₁) := by
  let _ : Crc32 := ieee
  obtain ⟨wal, hwal⟩ := new_wal_takes
  let p₁ : List LogEntry := [⟨2, 1, [7]⟩]
  let p₂ : List LogEntry := [⟨2, 1, [7]⟩, ⟨2, 2, [8]⟩]
  let leader (p : List LogEntry) : Node :=
    { bare 2 ⟨p, 0, 0⟩ wal with peers := ["n2"], nextIndex := fun _ => some 1 }
  let n : Node := bare 1 ⟨[⟨1, 1, [9]⟩], 0, 0⟩ wal
  let r₁ : AppendEntriesRequest := ⟨2, "n1", 0, 0, p₁, 0⟩
  let r₂ : AppendEntriesRequest := ⟨2, "n1", 0, 0, p₂, 0⟩
  have hnum₂ : Numbered p₂ := Represents.empty.numbered.push 2 [7] |>.push 2 [8]
  have hnum₁ : Numbered p₁ := hnum₂.of_prefix ⟨[⟨2, 2, [8]⟩], rfl⟩
  have hlead : ∀ p : List LogEntry, Numbered p → (∀ e ∈ p, 1 ≤ e.term) →
      LeaderLog (leader p) p := by
    intro p hp hterms
    exact ⟨⟨hp, Nat.zero_le _, rfl, rfl⟩, hterms, Nat.zero_le _⟩
  have hsends : ∀ (p : List LogEntry) (r : AppendEntriesRequest), 0 < p.length →
      r = (leader p).buildAppendEntriesFor "n2" (leader p).log.lastIndex →
      Sends (leader p) r := by
    intro p r hpos hr
    have hnew : (leader p).log.snapshotIndex < (leader p).log.lastIndex := by
      rw [LogView.lastIndex]
      exact Nat.lt_add_of_pos_right hpos
    exact Sends.replication hnew (List.mem_map.mpr
      ⟨"n2", List.mem_filter.mpr ⟨List.mem_singleton.mpr rfl, rfl⟩, by rw [hr]⟩)
  have hn : WellFormed n.log.toLogView := by
    refine ⟨LogView.Contiguous.empty.push 1 [9], by simp [n, bare], ?_⟩
    exact fun h => absurd h (lt_irrefl 0)
  have hmatch : MatchesLog n.log.toLogView p₂ := by
    intro j t hj hp
    obtain ⟨hpos, _⟩ := termAt_some_bounds hj
    have hle : j ≤ 1 := termAt_le_last hj
    obtain rfl : j = 1 := by omega
    have ht : n.log.toLogView.termAt 1 = some 1 := rfl
    rw [ht] at hj
    cases hj
    cases hp
  have htakes : ∀ r ∈ [r₁, r₂], ∀ r' ∈ [r₁, r₂], Takes n (r.entries ++ r'.entries) := by
    intro r hr r' hr'
    have hfits : ∀ q ∈ [r₁, r₂], q.entries.length ≤ 2 ∧ ∀ e ∈ q.entries, FitsSegment e.data := by
      simp [r₁, r₂, p₁, p₂, FitsSegment, walConfig, WalEntry.headerSize]
    obtain ⟨hlen, hfit⟩ := hfits r hr
    obtain ⟨hlen', hfit'⟩ := hfits r' hr'
    apply hwal n rfl hn.contiguous
    · rw [List.length_append]
      omega
    · intro e he
      rcases List.mem_append.mp he with he | he
      · exact hfit e he
      · exact hfit' e he
  have hr₁ : r₁ ∈ [r₁, r₂] := by simp
  have hr₂ : r₂ ∈ [r₁, r₂] := by simp
  have hacked : ∀ r ∈ [r₁, r₂], Acked n r := by
    intro r hr
    apply (onAppendEntries_view (htakes r hr r hr).front).1.mpr
    rcases List.mem_pair.mp hr with rfl | rfl
    · exact ⟨Nat.le_succ 1, fun h => absurd h (lt_irrefl 0)⟩
    · exact ⟨Nat.le_succ 1, fun h => absurd h (lt_irrefl 0)⟩
  have htwice : ∀ r ∈ [r₁, r₂], ∀ r' ∈ [r₁, r₂], Acked (deliver n r) r' := by
    intro r hr r' hr'
    apply (onAppendEntries_view (onAppendEntries_takes (htakes r hr r' hr'))).1.mpr
    have hterm : (deliver n r).ps.currentTerm = 2 := by
      rw [deliver, onAppendEntries_ps]
      rcases List.mem_pair.mp hr with rfl | rfl <;> rfl
    rcases List.mem_pair.mp hr' with rfl | rfl
    · exact ⟨Nat.le_of_eq hterm, fun h => absurd h (lt_irrefl 0)⟩
    · exact ⟨Nat.le_of_eq hterm, fun h => absurd h (lt_irrefl 0)⟩
  have hgapless : ∀ p : List LogEntry, p.head? = some ⟨2, 1, [7]⟩ →
      Gapless ⟨2, "n1", 0, 0, p, 0⟩ := by
    intro p hp _ e he
    rw [hp] at he
    cases he
    rfl
  obtain ⟨hcommute, _⟩ := appends_commute (hlead p₁ hnum₁ (by simp [p₁]))
    (hlead p₂ hnum₂ (by simp [p₂])) ⟨[⟨2, 2, [8]⟩], rfl⟩ (hsends p₁ r₁ (by decide) rfl)
    (hsends p₂ r₂ (by decide) rfl)
  obtain ⟨horder, hagain⟩ :=
    hcommute ⟨hgapless p₁ rfl, hgapless p₂ rfl⟩ n hn hmatch le_rfl le_rfl htakes
  exact ⟨n, r₁, r₂, rfl, rfl, rfl,
    horder (hacked _ hr₁) (htwice _ hr₁ _ hr₂) (hacked _ hr₂) (htwice _ hr₂ _ hr₁),
    hagain r₁ hr₁ (hacked _ hr₁)⟩

/-- A leader without its snapshot sends entry 2 behind no other, and the follower stores it
twice. -/
theorem append_stored_twice :
    ¬ ∀ (l n : Node) (p : List LogEntry) (r : AppendEntriesRequest), LeaderLog l p →
      Sends l r → WellFormed n.log.toLogView → MatchesLog n.log.toLogView p →
      n.log.snapshotIndex ≤ r.prevLogIndex → @Takes ieee n (r.entries ++ r.entries) →
      @Acked ieee n r →
      Same (@deliver ieee (@deliver ieee n r) r) (@deliver ieee n r) := by
  intro hclaim
  let _ : Crc32 := ieee
  obtain ⟨wal, hwal⟩ := new_wal_takes
  let p : List LogEntry := [⟨1, 1, [5]⟩, ⟨1, 2, [7]⟩]
  let l : Node :=
    { bare 1 ⟨[⟨1, 2, [7]⟩], 1, 1⟩ wal with peers := ["n2"], nextIndex := fun _ => some 1 }
  let n : Node := bare 1 LogView.empty wal
  let r : AppendEntriesRequest := ⟨1, "n1", 0, 0, [⟨1, 2, [7]⟩], 0⟩
  have hnum : Numbered p := Represents.empty.numbered.push 1 [5] |>.push 1 [7]
  have hl : LeaderLog l p :=
    ⟨⟨hnum, Nat.le_succ 1, rfl, rfl⟩, by simp [p], Nat.zero_le _⟩
  have hs : Sends l r := Sends.replication (Nat.lt_succ_self 1) (List.mem_map.mpr
    ⟨"n2", List.mem_filter.mpr ⟨List.mem_singleton.mpr rfl, rfl⟩, rfl⟩)
  have hn : WellFormed n.log.toLogView :=
    ⟨.empty, fun e he => absurd he List.not_mem_nil, fun h => absurd h (lt_irrefl 0)⟩
  have hmatch : MatchesLog n.log.toLogView p := by
    intro j t hj
    obtain ⟨hpos, _⟩ := termAt_some_bounds hj
    have hle : j ≤ 0 := termAt_le_last hj
    omega
  have htakes : Takes n (r.entries ++ r.entries) :=
    hwal n rfl .empty _ (by decide)
      (by simp [r, FitsSegment, walConfig, WalEntry.headerSize])
  have hpass : Passes n r := ⟨le_rfl, fun h => absurd h (lt_irrefl 0)⟩
  obtain ⟨hyes, hstored, _⟩ := onAppendEntries_view htakes.front
  have hterm : (deliver n r).ps.currentTerm = 1 := by
    rw [deliver, onAppendEntries_ps]
    rfl
  have hpass₂ : Passes (deliver n r) r := ⟨Nat.le_of_eq hterm, fun h => absurd h (lt_irrefl 0)⟩
  obtain ⟨_, hstored₂, _⟩ := onAppendEntries_view (onAppendEntries_takes htakes)
  obtain ⟨hsame, _⟩ := hclaim l n p r hl hs hn hmatch le_rfl htakes (hyes.mpr hpass)
  have hfirst : (deliver n r).log.toLogView = storeAll LogView.empty r.entries := hstored hpass
  have hsecond : storeAll (storeAll LogView.empty r.entries) r.entries =
      storeAll LogView.empty r.entries := by
    rw [← hfirst]
    exact (hstored₂ hpass₂).symm.trans hsame
  exact absurd hsecond (by decide)

end RaftNodeReordering
