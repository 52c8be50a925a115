import DistributedWal.RaftNodeAgreement

/-! # Finding the place where two logs meet

A leader that has been refused tries again from the follower's hint. A hint inside the
follower's log leads down, past the entries of one term at a time, until the logs meet, until
the leader has compacted the entry and sends its snapshot, or until the follower has: its
hint is the end of its log then. So the rounds can come back to where they have been.
-/
namespace RaftNodeBacktracking

open LittleEndianCodec WalSegment WalEngine WalContents ReplicatedLog ReplicatedLogContents
open WalEntry (Crc32 ieee WalError)
open RaftPersistentState RaftSnapshot RaftNode RaftNodeHandlers RaftNodeLogs RaftNodeAppends
open RaftNodeAgreement FullLog

/-- The follower has an entry of the leader's term at the previous index. -/
def Found (l f : LogView) (prev : ℕ) : Prop :=
  0 < prev → f.termAt prev = some ((l.termAt prev).getD 0)

/-- The conflict index of the follower's refusal. -/
def hint (f : LogView) (prev : ℕ) : ℕ :=
  match f.termAt prev with
  | none => f.lastIndex + 1
  | some t => (f.firstIndexOfTerm t).getD prev

/-- Where the hints lead: to an entry of the leader's, in front of the leader's log, or to an
index that the follower does not know. -/
inductive Outcome where
  | found
  | low
  | lost

/-- From an entry of another term the hints lead to the index in front of the first one of its
term. -/
inductive Leads (l f : LogView) : ℕ → Outcome → Prop where
  | found {prev : ℕ} (hin : l.snapshotIndex ≤ prev) (hfound : Found l f prev) :
      Leads l f prev .found
  | low {prev : ℕ} (hlow : prev < l.snapshotIndex) : Leads l f prev .low
  | lost {prev : ℕ} (hin : l.snapshotIndex ≤ prev) (hpos : 0 < prev)
      (hnone : f.termAt prev = none) : Leads l f prev .lost
  | back {prev t first : ℕ} {out : Outcome} (hin : l.snapshotIndex ≤ prev)
      (hterm : f.termAt prev = some t) (hnot : ¬ Found l f prev)
      (hfirst : f.firstIndexOfTerm t = some first) (hback : Leads l f (first - 1) out) :
      Leads l f prev out

/-- The follower's log after the leader's snapshot. -/
def afterInstall (f : LogView) : Option Snapshot → LogView
  | none => f
  | some s =>
    if s.lastIncludedIndex ≤ f.snapshotIndex then f
    else f.replaySnapshot s.lastIncludedIndex s.lastIncludedTerm

/-- After the snapshot the rounds go on from the leader's snapshot index, and once from the end
of the follower's log. -/
def MeetsInstalled (l g : LogView) : Prop :=
  Leads l g l.snapshotIndex .found ∨
    Leads l g l.snapshotIndex .lost ∧ Leads l g g.lastIndex .found

/-- The rounds find an entry of the leader's, at once, from the end of the follower's log or
after the snapshot. -/
def Meets (l f g : LogView) (prev : ℕ) : Prop :=
  Leads l f prev .found ∨ Leads l f prev .low ∧ MeetsInstalled l g ∨
    Leads l f prev .lost ∧
      (Leads l f f.lastIndex .found ∨ Leads l f f.lastIndex .low ∧ MeetsInstalled l g)

theorem termAt_point {v : LogView} (hpos : 0 < v.snapshotIndex) :
    v.termAt v.snapshotIndex = some v.snapshotTerm := by
  rw [LogView.termAt, if_neg (by omega), if_pos rfl]

/-- The first index of a term that stands behind the snapshot point. -/
theorem firstIndexOfTerm_of_termAt {f : LogView} (hc : f.Contiguous) {p t : ℕ}
    (habove : f.snapshotIndex < p) (ht : f.termAt p = some t) :
    ∃ i, f.firstIndexOfTerm t = some i ∧
      (t = f.snapshotTerm ∧ 0 < f.snapshotIndex ∧ i = f.snapshotIndex ∨
        f.snapshotIndex < i ∧ i ≤ p) := by
  rw [LogView.firstIndexOfTerm]
  by_cases hsnap : t = f.snapshotTerm ∧ f.snapshotIndex > 0
  · rw [if_pos hsnap]
    exact ⟨_, rfl, Or.inl ⟨hsnap.1, hsnap.2, rfl⟩⟩
  · rw [if_neg hsnap]
    rw [termAt_above habove] at ht
    obtain ⟨e, he, hterm⟩ := Option.map_eq_some_iff.mp ht
    have hlt := (List.getElem?_eq_some_iff.mp he).1
    have hfront : f.entries.take (p - f.snapshotIndex) <+: f.entries := List.take_prefix _ _
    have hmem : e ∈ f.entries.take (p - f.snapshotIndex) := by
      apply List.mem_of_getElem? (i := p - f.snapshotIndex - 1)
      rw [List.getElem?_take_of_lt (by omega)]
      exact he
    have hsome : (f.entries.take (p - f.snapshotIndex)).find? (fun x => x.term = t) ≠ none := by
      rw [Ne, List.find?_eq_none]
      intro h
      exact h e hmem (decide_eq_true hterm)
    obtain ⟨x, hx⟩ := Option.ne_none_iff_exists'.mp hsome
    have hfind : f.entries.find? (fun x => x.term = t) = some x :=
      List.IsPrefix.find?_eq_some hfront hx
    rw [hfind]
    refine ⟨x.index, rfl, Or.inr ?_⟩
    obtain ⟨k, hk⟩ := List.mem_iff_getElem?.mp (List.mem_of_find?_eq_some hx)
    rw [List.getElem?_take] at hk
    split at hk
    · have := hc k x hk
      omega
    · cases hk

theorem not_found_of_unknown {l f : LogView} {prev : ℕ} (hpos : 0 < prev)
    (hnone : f.termAt prev = none) : ¬ Found l f prev := by
  intro hfound
  have hsome := hfound hpos
  rw [hnone] at hsome
  cases hsome

/-- For an entry that the follower knows the hint leads down. -/
theorem hint_known {f : LogView} (hc : f.Contiguous) {prev t : ℕ}
    (hterm : f.termAt prev = some t) :
    ∃ first, f.firstIndexOfTerm t = some first ∧ 0 < first ∧ first ≤ prev ∧
      hint f prev = first := by
  have hhint : ∀ {first : ℕ}, f.firstIndexOfTerm t = some first → hint f prev = first := by
    intro first hfirst
    rw [hint, hterm]
    dsimp only
    rw [hfirst]
    rfl
  obtain ⟨hpos, hpoint⟩ := termAt_some_bounds hterm
  rcases Nat.lt_or_eq_of_le hpoint with habove | heq
  · obtain ⟨i, hi, ⟨_, hsnap, rfl⟩ | ⟨hlow, hle⟩⟩ := firstIndexOfTerm_of_termAt hc habove hterm
    · exact ⟨_, hi, hsnap, hpoint, hhint hi⟩
    · exact ⟨i, hi, Nat.zero_lt_of_lt hlow, hle, hhint hi⟩
  · rw [← heq, termAt_point (heq ▸ hpos)] at hterm
    cases hterm
    have hi : f.firstIndexOfTerm f.snapshotTerm = some f.snapshotIndex :=
      if_pos ⟨rfl, heq ▸ hpos⟩
    exact ⟨_, hi, heq ▸ hpos, hpoint, hhint hi⟩

theorem hint_pos {f : LogView} (hc : f.Contiguous) (prev : ℕ) : 0 < hint f prev := by
  cases hterm : f.termAt prev with
  | none =>
    rw [hint, hterm]
    exact Nat.succ_pos _
  | some t =>
    obtain ⟨first, _, hpos, _, hhint⟩ := hint_known hc hterm
    rw [hhint]
    exact hpos

theorem afterInstall_contiguous {f : LogView} (hf : f.Contiguous) (s : Option Snapshot) :
    (afterInstall f s).Contiguous := by
  cases s with
  | none => exact hf
  | some s =>
    rw [afterInstall]
    split
    · exact hf
    · rename_i hnew
      exact hf.above (Nat.le_of_not_le hnew) _

/-- The snapshot is installed once. -/
theorem afterInstall_again (f : LogView) (s : Option Snapshot) :
    afterInstall (afterInstall f s) s = afterInstall f s := by
  cases s with
  | none => rfl
  | some s =>
    by_cases hold : s.lastIncludedIndex ≤ f.snapshotIndex
    · rw [afterInstall, afterInstall, if_pos hold, if_pos hold]
    · have hnew : afterInstall f (some s) =
          f.replaySnapshot s.lastIncludedIndex s.lastIncludedTerm := if_neg hold
      rw [hnew]
      exact if_pos le_rfl

theorem countAppends_refused {l : Node} {upTo : ℕ} {peer : NodeId}
    {resp : AppendEntriesResponse} (hterm : resp.term ≤ l.ps.currentTerm)
    (hno : resp.success = false) (hhint : 0 < resp.conflictIndex) :
    l.finishReplication upTo [(peer, some resp)] [] =
      (1, withProgress l (Function.update l.nextIndex peer (some resp.conflictIndex))
        l.matchIndex) := by
  simp [withProgress, Node.finishReplication, Node.countAppends, Node.countSnapshots, hno, hhint,
    Nat.not_lt.mpr hterm]

theorem countAppends_success {l : Node} {upTo : ℕ} {peer : NodeId}
    {resp : AppendEntriesResponse} (hterm : resp.term ≤ l.ps.currentTerm)
    (hyes : resp.success = true) :
    (l.finishReplication upTo [(peer, some resp)] []).2.nextIndex peer = some (upTo + 1) := by
  simp [Node.finishReplication, Node.countAppends, Node.countSnapshots, hyes,
    Nat.not_lt.mpr hterm]

theorem countSnapshots_success {l : Node} {upTo : ℕ} {peer : NodeId}
    {resp : InstallSnapshotResponse} (hterm : resp.term ≤ l.ps.currentTerm)
    (hyes : resp.success = true) :
    (l.finishReplication upTo [] [(peer, some resp)]).2 =
      withProgress l (Function.update l.nextIndex peer (some (l.log.snapshotIndex + 1)))
        (Function.update l.matchIndex peer (some l.log.snapshotIndex)) := by
  simp [withProgress, Node.finishReplication, Node.countAppends, Node.countSnapshots, hyes,
    Nat.not_lt.mpr hterm]

theorem nextFor_withProgress (l : Node) (peer : NodeId) (next : ℕ)
    (matchIndex : NodeId → Option ℕ) :
    nextFor (withProgress l (Function.update l.nextIndex peer (some next)) matchIndex) peer =
      next := by
  simp [nextFor, withProgress]

section

variable [Crc32]

/-- One round for the peer, without losses: the request, the peer's handler, the reply. -/
def replicateOnce (l n : Node) (peer : NodeId) : Node × Node :=
  match l.snapshotFor peer l.log.lastIndex with
  | some req =>
    ((l.finishReplication l.log.lastIndex [] [(peer, some (n.onInstallSnapshot req).1)]).2,
      (n.onInstallSnapshot req).2)
  | none =>
    let req := l.buildAppendEntriesFor peer l.log.lastIndex
    ((l.finishReplication l.log.lastIndex [(peer, some (n.onAppendEntries req).1)] []).2,
      (n.onAppendEntries req).2)

/-- The round is a successful AppendEntries that takes the next index behind the log. -/
def Succeeds (l n : Node) (peer : NodeId) : Prop :=
  l.snapshotFor peer l.log.lastIndex = none ∧
    (n.onAppendEntries (l.buildAppendEntriesFor peer l.log.lastIndex)).1.success = true ∧
    (replicateOnce l n peer).1.nextIndex peer = some (l.log.lastIndex + 1)

/-- After finitely many rounds one succeeds. -/
inductive CatchesUp (peer : NodeId) : Node → Node → Prop where
  | now {l n : Node} (h : Succeeds l n peer) : CatchesUp peer l n
  | later {l n : Node} (h : CatchesUp peer (replicateOnce l n peer).1 (replicateOnce l n peer).2) :
      CatchesUp peer l n

/-- A leader with the log `l` and the snapshot `s`, and a follower with the log `f`, between two
rounds. -/
structure Pair (l f : LogView) (s : Option Snapshot) (leader follower : Node) : Prop where
  leaderLog : leader.log.toLogView = l
  snapshot : leader.snapshot = s
  present : 0 < l.snapshotIndex → s ≠ none
  followerLog : follower.log.toLogView = f
  term : follower.ps.currentTerm ≤ leader.ps.currentTerm
  takes : Takes follower l.entries
  room : ∀ x, s = some x → f.snapshotIndex < x.lastIncludedIndex →
    follower.log.wal.nextSequence + 2 * l.entries.length < 2 ^ 64

/-- The refusal of a request that is not stale. -/
theorem onAppendEntries_refused {n : Node} {req : AppendEntriesRequest}
    (hterm : n.ps.currentTerm ≤ req.term)
    (hnot : ¬ (0 < req.prevLogIndex → n.log.termAt req.prevLogIndex = some req.prevLogTerm)) :
    ∃ t, n.onAppendEntries req =
      (⟨req.term, false, hint n.log.toLogView req.prevLogIndex, t⟩,
        n.acceptLeader req.term req.leaderId) := by
  have hlog := (acceptLeader_log n req.term req.leaderId).1
  have hcur := acceptLeader_currentTerm hterm req.leaderId
  obtain ⟨hpos, hne⟩ := Classical.not_imp.mp hnot
  rw [Node.onAppendEntries, if_neg (Nat.not_lt.mpr hterm), hint]
  dsimp only
  cases ht : n.log.termAt req.prevLogIndex with
  | none =>
    have hcheck : (n.acceptLeader req.term req.leaderId).checkPrevious req =
        some ⟨req.term, false, n.log.lastIndex + 1, 0⟩ := by
      rw [Node.checkPrevious, if_pos hpos, hlog, ht]
      dsimp only
      rw [Node.aeReject, hcur]
    rw [hcheck]
    exact ⟨0, rfl⟩
  | some t =>
    have hconflict : t ≠ req.prevLogTerm := fun heq => hne (by rw [ht, heq])
    have hcheck : (n.acceptLeader req.term req.leaderId).checkPrevious req =
        some ⟨req.term, false, (n.log.firstIndexOfTerm t).getD req.prevLogIndex, t⟩ := by
      rw [Node.checkPrevious, if_pos hpos, hlog, ht]
      dsimp only
      rw [if_pos hconflict, Node.aeReject, hcur]
    rw [hcheck]
    exact ⟨t, rfl⟩

variable {l f : LogView} {s : Option Snapshot} {leader follower : Node} {peer : NodeId}

theorem Pair.nextFor_eq (h : Pair l f s leader follower) :
    nextFor leader peer = (leader.nextIndex peer).getD (l.lastIndex + 1) := by
  rw [nextFor, h.leaderLog]

theorem Pair.request (h : Pair l f s leader follower) (hl : l.Contiguous)
    (hnext : l.snapshotIndex < nextFor leader peer) :
    leader.snapshotFor peer leader.log.lastIndex = none ∧
      (leader.buildAppendEntriesFor peer leader.log.lastIndex).term = leader.ps.currentTerm ∧
      (leader.buildAppendEntriesFor peer leader.log.lastIndex).prevLogTerm =
        (l.termAt (nextFor leader peer - 1)).getD 0 ∧
      Takes follower (leader.buildAppendEntriesFor peer leader.log.lastIndex).entries := by
  have hlog := h.leaderLog
  have hentries := build_entries (l := leader) (by rw [hlog]; exact hl) peer
  refine ⟨?_, rfl, ?_, ?_⟩
  · have hnot : ¬ (leader.nextIndex peer).getD (leader.log.lastIndex + 1) ≤
        leader.log.snapshotIndex := by
      rw [hlog]
      rw [h.nextFor_eq] at hnext
      omega
    rw [Node.snapshotFor, if_neg hnot]
  · rw [← hlog]
    rfl
  · rw [hentries, hlog]
    apply h.takes.of_le
    · exact (List.drop_sublist _ _).length_le
    · intro e he
      exact h.takes.fits e (List.mem_of_mem_drop he)

/-- A round that finds the previous entry succeeds. -/
theorem Pair.found (h : Pair l f s leader follower) (hl : l.Contiguous)
    (hnext : l.snapshotIndex < nextFor leader peer)
    (hfound : Found l f (nextFor leader peer - 1)) : Succeeds leader follower peer := by
  obtain ⟨hnone, hterm, hprevTerm, htakes⟩ := h.request hl hnext
  set req := leader.buildAppendEntriesFor peer leader.log.lastIndex with hreq
  have hpass : Passes follower req := by
    refine ⟨hterm ▸ h.term, ?_⟩
    rw [hprevTerm, h.followerLog]
    exact hfound
  have hyes := (onAppendEntries_view htakes).1.mpr hpass
  refine ⟨hnone, hyes, ?_⟩
  have hresp : (follower.onAppendEntries req).1.term ≤ leader.ps.currentTerm := by
    rw [(onAppendEntries_cases follower req).1, onAppendEntries_ps, ← hterm]
    split
    · exact le_rfl
    · exact hpass.1
  rw [replicateOnce, hnone]
  exact countAppends_success hresp hyes

/-- The follower's prologue and the leader's bookkeeping change no log. -/
theorem Pair.accepted (h : Pair l f s leader follower) {t : ℕ}
    (ht : t = leader.ps.currentTerm) (id : NodeId) (next own : NodeId → Option ℕ) :
    Pair l f s (withProgress leader next own) (follower.acceptLeader t id) := by
  have hlog := (acceptLeader_log follower t id).1
  refine ⟨h.leaderLog, h.snapshot, h.present, ?_, ?_, h.takes.acceptLeader _ _, ?_⟩
  · rw [hlog]
    exact h.followerLog
  · rw [acceptLeader_currentTerm (ht ▸ h.term)]
    exact Nat.le_of_eq ht
  · rw [hlog]
    exact h.room

/-- A round that does not find it takes over the hint and leaves the logs alone. -/
theorem Pair.refused (h : Pair l f s leader follower) (hl : l.Contiguous) (hf : f.Contiguous)
    (hnext : l.snapshotIndex < nextFor leader peer)
    (hnot : ¬ Found l f (nextFor leader peer - 1)) :
    Pair l f s (replicateOnce leader follower peer).1 (replicateOnce leader follower peer).2 ∧
      nextFor (replicateOnce leader follower peer).1 peer =
        hint f (nextFor leader peer - 1) := by
  obtain ⟨hnone, hterm, hprevTerm, htakes⟩ := h.request hl hnext
  set req := leader.buildAppendEntriesFor peer leader.log.lastIndex with hreq
  have hprev : req.prevLogIndex = nextFor leader peer - 1 := rfl
  have hle : follower.ps.currentTerm ≤ req.term := hterm ▸ h.term
  have hrefuse : ¬ (0 < req.prevLogIndex →
      follower.log.termAt req.prevLogIndex = some req.prevLogTerm) := by
    rw [hprevTerm, h.followerLog, hprev]
    exact hnot
  obtain ⟨t, hresp⟩ := onAppendEntries_refused hle hrefuse
  have hpos : 0 < nextFor leader peer - 1 := by
    by_contra hzero
    exact hnot (fun hpos => absurd hpos hzero)
  rw [h.followerLog, hprev] at hresp
  have hround : replicateOnce leader follower peer =
      (withProgress leader (Function.update leader.nextIndex peer
          (some (hint f (nextFor leader peer - 1)))) leader.matchIndex,
        follower.acceptLeader req.term req.leaderId) := by
    rw [replicateOnce, hnone]
    dsimp only
    rw [← hreq, hresp]
    dsimp only
    rw [countAppends_refused (Nat.le_of_eq hterm) rfl (hint_pos hf _)]
  rw [hround]
  exact ⟨h.accepted hterm _ _ _, nextFor_withProgress _ _ _ _⟩

/-- The round for a peer that lags behind the leader's log: it installs the snapshot or is past
it, and the leader goes on behind its own snapshot index. -/
theorem Pair.low (h : Pair l f s leader follower) (hnext : 0 < nextFor leader peer)
    (hlag : nextFor leader peer ≤ l.snapshotIndex) :
    ¬ Succeeds leader follower peer ∧
      Pair l (afterInstall f s) s (replicateOnce leader follower peer).1
        (replicateOnce leader follower peer).2 ∧
      nextFor (replicateOnce leader follower peer).1 peer = l.snapshotIndex + 1 := by
  obtain ⟨x, rfl⟩ := Option.ne_none_iff_exists'.mp (h.present (Nat.lt_of_lt_of_le hnext hlag))
  obtain ⟨req, hreq, hterm, hindex, hsnapTerm⟩ :
      ∃ req, leader.snapshotFor peer leader.log.lastIndex = some req ∧
        req.term = leader.ps.currentTerm ∧ req.lastIncludedIndex = x.lastIncludedIndex ∧
        req.lastIncludedTerm = x.lastIncludedTerm := by
    rw [h.nextFor_eq, ← h.leaderLog] at hlag
    rw [Node.snapshotFor, if_pos hlag, h.snapshot]
    exact ⟨_, rfl, rfl, rfl, rfl⟩
  have hfails : ¬ Succeeds leader follower peer := by
    intro hsucc
    have hnone := hsucc.1
    rw [hreq] at hnone
    cases hnone
  refine ⟨hfails, ?_⟩
  rw [replicateOnce, hreq]
  dsimp only
  by_cases hold : x.lastIncludedIndex ≤ f.snapshotIndex
  · rw [afterInstall, if_pos hold]
    have hpast : req.lastIncludedIndex ≤ follower.log.snapshotIndex := by
      rw [hindex, h.followerLog]
      exact hold
    rw [onInstallSnapshot_old (hterm ▸ h.term) hpast,
      countSnapshots_success (Nat.le_of_eq hterm) rfl]
    refine ⟨h.accepted hterm _ _ _, ?_⟩
    rw [nextFor_withProgress, h.leaderLog]
  · rw [afterInstall, if_neg hold]
    have hnew : follower.log.snapshotIndex < req.lastIncludedIndex := by
      rw [hindex, h.followerLog]
      exact Nat.lt_of_not_le hold
    obtain ⟨hresp, hcur, hview, htakes⟩ := onInstallSnapshot_new (hterm ▸ h.term) hnew h.takes
      (h.room x rfl (Nat.lt_of_not_le hold))
    rw [hresp, countSnapshots_success (Nat.le_of_eq hterm) rfl]
    refine ⟨⟨h.leaderLog, h.snapshot, h.present, ?_, ?_, htakes, ?_⟩, ?_⟩
    · rw [hview, h.followerLog, hindex, hsnapTerm]
    · exact Nat.le_of_eq (hcur.trans hterm)
    · intro y hy hlow
      cases hy
      exact absurd hlow (lt_irrefl _)
    · rw [nextFor_withProgress, h.leaderLog]

theorem Pair.fails (h : Pair l f s leader follower) (hl : l.Contiguous)
    (hin : l.snapshotIndex < nextFor leader peer)
    (hnot : ¬ Found l f (nextFor leader peer - 1)) : ¬ Succeeds leader follower peer := by
  intro hsucc
  obtain ⟨_, _, hprevTerm, htakes⟩ := h.request hl hin
  obtain ⟨_, hfound⟩ := (onAppendEntries_view htakes).1.mp hsucc.2.1
  rw [hprevTerm, h.followerLog] at hfound
  exact hnot hfound

/-- At an index that the follower does not know, the round goes to the end of its log. -/
theorem Pair.lost (h : Pair l f s leader follower) (hl : l.Contiguous) (hf : f.Contiguous)
    {prev : ℕ} (hnext : nextFor leader peer = prev + 1) (hin : l.snapshotIndex ≤ prev)
    (hpos : 0 < prev) (hnone : f.termAt prev = none) :
    ¬ Succeeds leader follower peer ∧
      Pair l f s (replicateOnce leader follower peer).1 (replicateOnce leader follower peer).2 ∧
      nextFor (replicateOnce leader follower peer).1 peer = f.lastIndex + 1 := by
  have hprev : nextFor leader peer - 1 = prev := by omega
  have hnot : ¬ Found l f (nextFor leader peer - 1) := by
    rw [hprev]
    exact not_found_of_unknown hpos hnone
  obtain ⟨hpair, hafter⟩ := h.refused hl hf (by omega) hnot
  rw [hprev, hint, hnone] at hafter
  exact ⟨h.fails hl (by omega) hnot, hpair, hafter⟩

/-- At a conflict it goes down. -/
theorem Pair.back (h : Pair l f s leader follower) (hl : l.Contiguous) (hf : f.Contiguous)
    {prev t first : ℕ} (hnext : nextFor leader peer = prev + 1) (hin : l.snapshotIndex ≤ prev)
    (hterm : f.termAt prev = some t) (hnot : ¬ Found l f prev)
    (hfirst : f.firstIndexOfTerm t = some first) :
    ¬ Succeeds leader follower peer ∧
      Pair l f s (replicateOnce leader follower peer).1 (replicateOnce leader follower peer).2 ∧
      nextFor (replicateOnce leader follower peer).1 peer = first - 1 + 1 := by
  have hprev : nextFor leader peer - 1 = prev := by omega
  rw [← hprev] at hnot
  obtain ⟨hpair, hafter⟩ := h.refused hl hf (by omega) hnot
  obtain ⟨i, hi, hpos, _, hhint⟩ := hint_known hf hterm
  rw [hfirst] at hi
  cases hi
  rw [hprev] at hafter
  exact ⟨h.fails hl (by omega) hnot, hpair, by omega⟩

/-- Where the hints lead, the rounds come. -/
theorem Pair.follow (h : Pair l f s leader follower) (hl : l.Contiguous) (hf : f.Contiguous)
    {prev : ℕ} {out : Outcome} (hleads : Leads l f prev out)
    (hnext : nextFor leader peer = prev + 1)
    (hlow : out = .low → ∀ {m n : Node}, Pair l (afterInstall f s) s m n →
      nextFor m peer = l.snapshotIndex + 1 → CatchesUp peer m n)
    (hlost : out = .lost → ∀ {m n : Node}, Pair l f s m n →
      nextFor m peer = f.lastIndex + 1 → CatchesUp peer m n) :
    CatchesUp peer leader follower := by
  induction hleads generalizing leader follower with
  | @found prev hin hfound =>
    have hprev : nextFor leader peer - 1 = prev := by omega
    exact CatchesUp.now (h.found hl (by omega) (hprev ▸ hfound))
  | low hbelow =>
    have hlag : nextFor leader peer ≤ l.snapshotIndex := by omega
    obtain ⟨_, hpair, hafter⟩ := h.low (by omega) hlag
    exact CatchesUp.later (hlow rfl hpair hafter)
  | lost hin hpos hnone =>
    obtain ⟨_, hpair, hafter⟩ := h.lost hl hf hnext hin hpos hnone
    exact CatchesUp.later (hlost rfl hpair hafter)
  | back hin hterm hnot hfirst _ ih =>
    obtain ⟨_, hpair, hafter⟩ := h.back hl hf hnext hin hterm hnot hfirst
    exact CatchesUp.later (ih hpair hafter hlow hlost)

theorem Pair.catchesUp_installed {g : LogView} (h : Pair l g s leader follower)
    (hl : l.Contiguous) (hg : g.Contiguous) (hmeets : MeetsInstalled l g)
    (hnext : nextFor leader peer = l.snapshotIndex + 1) : CatchesUp peer leader follower := by
  rcases hmeets with hfound | ⟨hlost, hend⟩
  · exact h.follow hl hg hfound hnext (by simp) (by simp)
  · apply h.follow hl hg hlost hnext (by simp)
    intro _ m n hpair hafter
    exact hpair.follow hl hg hend hafter (by simp) (by simp)

theorem Pair.catchesUp (h : Pair l f s leader follower) (hl : l.Contiguous) (hf : f.Contiguous)
    {prev : ℕ} (hnext : nextFor leader peer = prev + 1)
    (hmeets : Meets l f (afterInstall f s) prev) : CatchesUp peer leader follower := by
  have hg := afterInstall_contiguous hf s
  rcases hmeets with hfound | ⟨hlow, hinstalled⟩ | ⟨hlost, hend⟩
  · exact h.follow hl hf hfound hnext (by simp) (by simp)
  · apply h.follow hl hf hlow hnext _ (by simp)
    intro _ m n hpair hafter
    exact hpair.catchesUp_installed hl hg hinstalled hafter
  · apply h.follow hl hf hlost hnext (by simp)
    intro _ m n hpair hafter
    rcases hend with hfound | ⟨hlow, hinstalled⟩
    · exact hpair.follow hl hf hfound hafter (by simp) (by simp)
    · apply hpair.follow hl hf hlow hafter _ (by simp)
      intro _ m' n' hpair' hafter'
      exact hpair'.catchesUp_installed hl hg hinstalled hafter'

/-- What the rounds find after the first one, they find from there. -/
theorem meets_of_catchesUp (hl : l.Contiguous) (hcatch : CatchesUp peer leader follower)
    (hf : f.Contiguous) (h : Pair l f s leader follower) {prev : ℕ}
    (hnext : nextFor leader peer = prev + 1) : Meets l f (afterInstall f s) prev := by
  induction hcatch generalizing f prev with
  | @now leader follower hsucc =>
    have hin : l.snapshotIndex ≤ prev := by
      by_contra hlow
      have hlag : nextFor leader peer ≤ l.snapshotIndex := by omega
      exact (h.low (by omega) hlag).1 hsucc
    left
    apply Leads.found hin
    by_contra hnot
    refine h.fails hl (by omega) ?_ hsucc
    rw [hnext, Nat.add_sub_cancel]
    exact hnot
  | @later leader follower _ ih =>
    rcases Nat.lt_or_ge prev l.snapshotIndex with hlow | hin
    · have hlag : nextFor leader peer ≤ l.snapshotIndex := by omega
      obtain ⟨_, hpair, hafter⟩ := h.low (by omega) hlag
      have hmeets := ih (afterInstall_contiguous hf s) hpair hafter
      rw [afterInstall_again] at hmeets
      refine Or.inr (Or.inl ⟨.low hlow, ?_⟩)
      rcases hmeets with hfound | ⟨_, hinstalled⟩ | ⟨hlost, hfound | ⟨_, hinstalled⟩⟩
      · exact Or.inl hfound
      · exact hinstalled
      · exact Or.inr ⟨hlost, hfound⟩
      · exact hinstalled
    by_cases hfound : Found l f prev
    · exact Or.inl (.found hin hfound)
    have hpos : 0 < prev := by
      by_contra hzero
      exact hfound (fun hpos => absurd hpos hzero)
    cases hterm : f.termAt prev with
    | none =>
      obtain ⟨_, hpair, hafter⟩ := h.lost hl hf hnext hin hpos hterm
      refine Or.inr (Or.inr ⟨.lost hin hpos hterm, ?_⟩)
      rcases ih hf hpair hafter with hend | hend | ⟨_, hend⟩
      · exact Or.inl hend
      · exact Or.inr hend
      · exact hend
    | some t =>
      obtain ⟨first, hfirst, _⟩ := hint_known hf hterm
      obtain ⟨_, hpair, hafter⟩ := h.back hl hf hnext hin hterm hfound hfirst
      have hback : ∀ {out : Outcome}, Leads l f (first - 1) out → Leads l f prev out :=
        fun hleads => .back hin hterm hfound hfirst hleads
      rcases ih hf hpair hafter with hend | ⟨hlow, hinstalled⟩ | ⟨hlost, hend⟩
      · exact Or.inl (hback hend)
      · exact Or.inr (Or.inl ⟨hback hlow, hinstalled⟩)
      · exact Or.inr (Or.inr ⟨hback hlost, hend⟩)

end

section

variable {l f : LogView}

/-- The follower's snapshot is a snapshot of entries that the leader has. -/
structure Agrees (l f : LogView) : Prop where
  reaches : f.snapshotIndex ≤ l.lastIndex
  point : 0 < f.snapshotIndex → l.snapshotIndex ≤ f.snapshotIndex →
    l.termAt f.snapshotIndex = some f.snapshotTerm

/-- A follower without a snapshot ahead of the leader's knows every index that the hints come
to. -/
theorem leads_inside (hf : f.Contiguous) (hbehind : f.snapshotIndex ≤ l.snapshotIndex)
    {prev : ℕ} (hlast : prev ≤ f.lastIndex) :
    Leads l f prev .found ∨ Leads l f prev .low := by
  induction prev using Nat.strong_induction_on with
  | _ prev ih =>
    rcases Nat.lt_or_ge prev l.snapshotIndex with hlow | hin
    · exact Or.inr (.low hlow)
    by_cases hfound : Found l f prev
    · exact Or.inl (.found hin hfound)
    have hpos : 0 < prev := by
      by_contra hzero
      exact hfound (fun hpos => absurd hpos hzero)
    obtain ⟨t, hterm⟩ := termAt_known hpos (hbehind.trans hin) hlast
    obtain ⟨first, hfirst, hone, hle, _⟩ := hint_known hf hterm
    rcases ih (first - 1) (by omega) (by omega) with hend | hend
    · exact Or.inl (.back hin hterm hfound hfirst hend)
    · exact Or.inr (.back hin hterm hfound hfirst hend)

/-- With its snapshot at the leader's or behind it, and the leader's snapshot that of its log,
the follower always catches up. -/
theorem meets_behind (hf : f.Contiguous) (hagree : Agrees l f)
    (hbehind : f.snapshotIndex ≤ l.snapshotIndex) {s : Option Snapshot}
    (hsnap : 0 < l.snapshotIndex → ∃ data, s = some ⟨l.snapshotIndex, l.snapshotTerm, data⟩)
    (prev : ℕ) : Meets l f (afterInstall f s) prev := by
  have hinstalled : MeetsInstalled l (afterInstall f s) := by
    refine Or.inl (.found le_rfl ?_)
    intro hpos
    obtain ⟨data, rfl⟩ := hsnap hpos
    rw [termAt_point hpos, afterInstall]
    split
    · rename_i hle
      have heq : f.snapshotIndex = l.snapshotIndex := Nat.le_antisymm hbehind hle
      have hpoint := hagree.point (heq ▸ hpos) (Nat.le_of_eq heq.symm)
      rw [heq, termAt_point hpos] at hpoint
      rw [← heq, termAt_point (heq ▸ hpos), ← Option.some.inj hpoint]
      rfl
    · exact termAt_point (v := f.replaySnapshot l.snapshotIndex l.snapshotTerm) hpos
  have hend := leads_inside hf hbehind (le_refl f.lastIndex)
  rcases Nat.lt_or_ge f.lastIndex prev with hout | hlast
  · rcases Nat.lt_or_ge prev l.snapshotIndex with hlow | hin
    · exact Or.inr (Or.inl ⟨.low hlow, hinstalled⟩)
    · refine Or.inr (Or.inr ⟨.lost hin (by omega) (termAt_beyond hout), ?_⟩)
      exact hend.imp id (fun hlow => ⟨hlow, hinstalled⟩)
  · rcases leads_inside hf hbehind hlast with hfound | hlow
    · exact Or.inl hfound
    · exact Or.inr (Or.inl ⟨hlow, hinstalled⟩)

end

end RaftNodeBacktracking
