import DistributedWal.Quorums
import DistributedWal.RaftNodeLateAppends

/-! # What an acknowledgement says

A leader replicates its last entry to its peers. Each call is lost, or the peer handles it
and its reply is lost or arrives. An AppendEntries success says that the peer has the entry,
unless the entries it was sent leave a gap or meet a snapshot; an InstallSnapshot success says
nothing about it.
-/
namespace RaftNodeAcks

open LittleEndianCodec WalSegment WalEngine WalContents ReplicatedLog ReplicatedLogContents
open WalEntry (Crc32 ieee WalError)
open RaftPersistentState RaftSnapshot RaftNode RaftNodeFrame RaftNodeHandlers RaftNodeLogs
open RaftNodeAppends RaftNodeAgreement RaftNodeLateAppends FullLog LogMerge Quorums

/-- What becomes of a call: it does not arrive, its reply does not, or the reply does. -/
inductive Fate where
  | lost
  | unheard
  | heard
  deriving DecidableEq

instance (n : Node) (req : AppendEntriesRequest) : Decidable (Passes n req) :=
  inferInstanceAs (Decidable (_ ∧ _))

/-- The leader's entries from an index on. -/
def sent (l : LogView) (first : ℕ) : List LogEntry := l.entries.drop (first - l.snapshotIndex - 1)

/-- The log of a peer hides the leader's last entry: with the entries that its snapshot covers
at its end, it has the leader's terms from the first entry sent on, and another last entry. -/
def Masked (l v : LogView) (first : ℕ) : Prop :=
  (∀ i ≤ l.lastIndex, first ≤ i → v.snapshotIndex < i →
    (padded v (sent l first)).termAt i = l.termAt i) ∧
  entryAt (padded v (sent l first)) l.lastIndex ≠ entryAt l l.lastIndex

instance (l v : LogView) (first : ℕ) : Decidable (Masked l v first) :=
  inferInstanceAs (Decidable (_ ∧ _))

section

variable {l v : LogView} {first i : ℕ}

theorem sent_getElem? (hfirst : l.snapshotIndex < first) (k : ℕ) :
    (sent l first)[k]? = entryAt l (first + k) := by
  rw [sent, List.getElem?_drop, entryAt_above (by omega)]
  congr 1
  omega

theorem sent_consecutive (hc : l.Contiguous) (hfirst : l.snapshotIndex < first) :
    Consecutive first (sent l first) := by
  intro k e he
  rw [sent, List.getElem?_drop] at he
  have := hc _ e he
  omega

theorem sent_nil (hout : l.lastIndex < first) : sent l first = [] := by
  apply List.drop_eq_nil_of_le
  rw [LogView.lastIndex] at hout
  omega

/-- A gap behind the peer's log: the entries come to its end, with lower indices. -/
theorem gap_lacks (hc : l.Contiguous) (hfirst : l.snapshotIndex < first)
    (hin : first ≤ l.lastIndex) (hgap : v.lastIndex + 1 < first) :
    entryAt (storeAll v (sent l first)) l.lastIndex = none := by
  have hlast := storeAll_gap hgap (sent_consecutive hc hfirst)
  have hlen : (sent l first).length = l.lastIndex + 1 - first := by
    rw [sent, List.length_drop, LogView.lastIndex]
    omega
  cases hentry : entryAt (storeAll v (sent l first)) l.lastIndex with
  | none => rfl
  | some x =>
    have := (entryAt_bounds hentry).2
    omega

/-- What the entries behind the snapshot point of the peer meet there, and where they go. -/
theorem met_getElem? {b : ℕ} (hb : v.snapshotIndex < b) (k : ℕ) :
    ((padded v (sent l first)).entries.drop (b - 1 - v.snapshotIndex))[k]? =
      entryAt (padded v (sent l first)) (b + k) := by
  have hpoint : (padded v (sent l first)).snapshotIndex = v.snapshotIndex := rfl
  rw [List.getElem?_drop, entryAt_above (by omega), hpoint]
  congr 1
  omega

theorem behind_getElem? (hc : l.Contiguous) (hfirst : l.snapshotIndex < first) (k : ℕ) :
    (behind v (sent l first))[k]? = entryAt l (max first (v.snapshotIndex + 1) + k) := by
  rw [behind_eq_drop (sent_consecutive hc hfirst), List.getElem?_drop, sent_getElem? hfirst]
  congr 1
  omega

theorem merged_getElem? (hc : l.Contiguous) (hfirst : l.snapshotIndex < first)
    (hreach : first ≤ v.lastIndex + 1) (k : ℕ) :
    entryAt (storeAll v (sent l first)) (max first (v.snapshotIndex + 1) + k) =
      (merge LogEntry.term ((padded v (sent l first)).entries.drop
          (max first (v.snapshotIndex + 1) - 1 - v.snapshotIndex))
        (behind v (sent l first)))[k]? := by
  have hes := sent_consecutive hc hfirst
  have hpoint : (padded v (sent l first)).snapshotIndex = v.snapshotIndex := rfl
  have hlast : v.lastIndex ≤ (padded v (sent l first)).lastIndex := padded_lastIndex v _
  have hvlast : v.snapshotIndex ≤ v.lastIndex := Nat.le_add_right ..
  have hbehind := behind_consecutive (v := v) hes
  set b := max first (v.snapshotIndex + 1)
  have hb : b = b - 1 + 1 := by omega
  rw [hb] at hbehind
  have hin : (padded v (sent l first)).snapshotIndex ≤ b - 1 := by omega
  have hst := stored_of_storeAll hin (by omega) hbehind
  rw [storeAll_padded hes]
  have hat := hst.new (by omega) (by omega) k
  rwa [← hb] at hat

/-- Without a gap the peer has the leader's last entry then, unless its log hides it. -/
theorem merged_has (hc : l.Contiguous) (hfirst : l.snapshotIndex < first)
    (hin : first ≤ l.lastIndex) (hlow : v.snapshotIndex < l.lastIndex)
    (hreach : first ≤ v.lastIndex + 1) :
    entryAt (storeAll v (sent l first)) l.lastIndex = entryAt l l.lastIndex ↔
      ¬ Masked l v first := by
  have hat := merged_getElem? hc hfirst hreach
  have hnew := behind_getElem? (v := v) hc hfirst
  have hbase : v.snapshotIndex < max first (v.snapshotIndex + 1) := by omega
  have hold := @met_getElem? l v first _ hbase
  rw [Masked]
  set u := padded v (sent l first)
  set b := max first (v.snapshotIndex + 1) with hb
  have hpoint : u.snapshotIndex = v.snapshotIndex := rfl
  obtain ⟨q, hq⟩ : ∃ q, l.lastIndex = b + q := ⟨l.lastIndex - b, by omega⟩
  obtain ⟨y, hy⟩ := entryAt_held (v := l) (i := l.lastIndex) (by omega) le_rfl
  have hterm : ∀ i, b ≤ i → u.termAt i = (entryAt u i).map LogEntry.term ∧
      l.termAt i = (entryAt l i).map LogEntry.term :=
    fun i hi => ⟨termAt_entryAt (by omega), termAt_entryAt (by omega)⟩
  have hlastNew := (hnew q).trans (hq ▸ hy)
  have hlastOld := hold q
  rw [← hq] at hlastOld
  have hmerged := hat q
  rw [← hq] at hmerged
  rw [hmerged, hy, merge_eq_new_iff hlastNew, hlastOld]
  constructor
  · rintro (⟨p, hp, x, z, hx, hz, hne⟩ | hsame) ⟨hterms, hother⟩
    · -- a conflict is an index with another term
      rw [hold] at hx
      rw [hnew] at hz
      have hterm' := hterms (b + p) (by omega) (by omega) (by omega)
      rw [(hterm _ (by omega)).1, (hterm _ (by omega)).2, hx, hz] at hterm'
      exact hne (Option.some.inj hterm')
    · cases hx : entryAt u l.lastIndex with
      | none =>
        have hterm' := hterms l.lastIndex le_rfl hin hlow
        rw [(hterm _ (by omega)).1, (hterm _ (by omega)).2, hx, hy] at hterm'
        cases hterm'
      | some x =>
        rw [hx, hsame x hx] at hother
        exact hother rfl
  · intro hnot
    by_contra hno
    obtain ⟨hconf, hother⟩ := not_or.mp hno
    obtain ⟨x, hx, hne⟩ : ∃ x, entryAt u l.lastIndex = some x ∧ x ≠ y := by
      simpa only [not_forall, exists_prop] using hother
    refine hnot ⟨?_, by rw [hx]; exact fun h => hne (Option.some.inj h)⟩
    intro i hi hfrom hbehind
    obtain ⟨hu, hl⟩ := hterm i (by omega)
    obtain ⟨k, rfl⟩ : ∃ k, i = b + k := ⟨i - b, by omega⟩
    obtain ⟨a, ha⟩ := entryAt_held (v := u) (by omega) (hi.trans (entryAt_bounds hx).2)
    obtain ⟨z, hz⟩ := entryAt_held (v := l) (by omega) hi
    rw [hu, hl, ha, hz]
    by_contra hdiff
    exact hconf ⟨k, by omega, a, z, (hold k).trans ha, (hnew k).trans hz,
      fun h => hdiff (congrArg some h)⟩

/-- What a peer that takes the entries has of the leader's last entry. -/
theorem stored_has (hc : l.Contiguous) (hl : l.snapshotIndex < l.lastIndex)
    (hfirst : l.snapshotIndex < first)
    (hnone : l.lastIndex < first → first ≤ v.lastIndex + 1) :
    entryAt (storeAll v (sent l first)) l.lastIndex = entryAt l l.lastIndex ↔
      v.snapshotIndex < l.lastIndex ∧ first ≤ v.lastIndex + 1 ∧ ¬ Masked l v first := by
  obtain ⟨y, hy⟩ := entryAt_held hl le_rfl
  rcases Nat.lt_or_ge l.lastIndex first with hout | hin
  · -- nothing is sent: the log stays, and nothing is at the end of it
    have hnil := sent_nil hout
    have hpad : padded v (sent l first) = v := by
      rw [hnil]
      simp [padded, misplaced, appended, extend]
    have hmasked : Masked l v first ↔ entryAt v l.lastIndex ≠ entryAt l l.lastIndex := by
      rw [Masked, hpad]
      exact ⟨And.right, fun h => ⟨fun i hi hfrom => by omega, h⟩⟩
    rw [hmasked, not_not, hnil, storeAll_nil]
    constructor
    · intro hhas
      exact ⟨(entryAt_bounds (hhas.trans hy)).1, hnone hout, hhas⟩
    · exact fun h => h.2.2
  · by_cases hlow : v.snapshotIndex < l.lastIndex
    · by_cases hreach : first ≤ v.lastIndex + 1
      · rw [merged_has hc hfirst hin hlow hreach]
        exact ⟨fun h => ⟨hlow, hreach, h⟩, fun h => h.2.2⟩
      · rw [gap_lacks hc hfirst hin (Nat.lt_of_not_le hreach), hy]
        exact iff_of_false (by simp) (fun h => hreach h.2.1)
    · rw [entryAt_below (by rw [storeAll_snapshotIndex]; omega), hy]
      exact iff_of_false (by simp) (fun h => hlow h.1)

end

variable (l : Node) (f : NodeId → Node)

/-- The request for the peer that is not to get a snapshot. -/
def request (p : NodeId) : AppendEntriesRequest := l.buildAppendEntriesFor p l.log.lastIndex

/-- The index of the first entry in it. -/
def firstSent (p : NodeId) : ℕ := max (nextFor l p) (l.log.snapshotIndex + 1)

/-- The log has the last entry of the leader. -/
def has (n : Node) : Bool :=
  entryAt n.log.toLogView l.log.lastIndex = entryAt l.log.toLogView l.log.lastIndex

/-- The peer answers its call with success. -/
def accepts (p : NodeId) : Bool :=
  match l.snapshotFor p l.log.lastIndex with
  | some req => decide ((f p).ps.currentTerm ≤ req.term)
  | none => decide (Passes (f p) (request l p))

/-- A peer that answers with success has the entry then: it keeps the entry when it installs
the snapshot, or its log reaches the entries that it is sent and does not hide the last one. -/
def keeps (p : NodeId) : Bool :=
  match l.snapshotFor p l.log.lastIndex with
  | some req => has l (f p) && decide (req.lastIncludedIndex < l.log.lastIndex)
  | none => decide ((f p).log.snapshotIndex < l.log.lastIndex ∧
      firstSent l p ≤ (f p).log.lastIndex + 1 ∧
      ¬ Masked l.log.toLogView (f p).log.toLogView (firstSent l p))

/-- Peers that acknowledge without having the entry. -/
def lacking : List NodeId := l.peers.filter (fun p => accepts l f p && !keeps l f p)

/-- Peers that have the entry and refuse the call. -/
def refusing : List NodeId := l.peers.filter (fun p => !accepts l f p && has l (f p))

section

variable [Crc32] (fate : NodeId → Fate)

def appendResults : List (NodeId × Option AppendEntriesResponse) :=
  (l.appendCalls l.log.lastIndex).map (fun c =>
    (c.1, if fate c.1 = .heard then some ((f c.1).begin.onAppendEntries c.2).1 else none))

def snapshotResults : List (NodeId × Option InstallSnapshotResponse) :=
  (l.snapshotCalls l.log.lastIndex).map (fun c =>
    (c.1, if fate c.1 = .heard then some ((f c.1).begin.onInstallSnapshot c.2).1 else none))

/-- The peer when the call returns. -/
def after (p : NodeId) : Node :=
  if fate p = .lost then f p
  else
    match l.snapshotFor p l.log.lastIndex with
    | some req => (f p).act (.installSnapshot req)
    | none => (f p).act (.appendEntries (request l p))

/-- What `replicate_to_peers` returns. -/
def acks : ℕ :=
  (l.finishReplication l.log.lastIndex (appendResults l f fate) (snapshotResults l f fate)).1

/-- The leader and the peers that have its entry. -/
def holders : ℕ := 1 + (l.peers.filter (fun p => has l (after l f fate p))).length

end

/-- Whatever happens to the calls, no more acks than nodes that have the entry, and a
write that is acknowledged is stored by a quorum. -/
def AcksSound [Crc32] : Prop :=
  ∀ fate, acks l f fate ≤ holders l f fate ∧
    ∀ i, (l.finishWrite l.log.lastIndex (appendResults l f fate)
      (snapshotResults l f fate)).1 = .ok i → l.quorum ≤ holders l f fate

/-- A leader with an entry to replicate, and peers whose WALs take the records. -/
structure Group [Crc32] : Prop where
  entry : l.log.entries ≠ []
  leader : l.log.toLogView.Contiguous
  peers : ∀ p ∈ l.peers, (f p).log.toLogView.Contiguous
  wal : ∀ p ∈ l.peers, Takes (f p) l.log.entries
  room : ∀ p ∈ l.peers, (f p).log.wal.nextSequence + 2 * l.log.entries.length < 2 ^ 64

section

variable {l : Node} {f : NodeId → Node} {p : NodeId}

theorem entryAt_replaySnapshot {v : LogView} (hc : v.Contiguous) {i : ℕ}
    (hi : v.snapshotIndex < i) (t j : ℕ) :
    entryAt (v.replaySnapshot i t) j = if j ≤ i then none else entryAt v j := by
  by_cases hj : j ≤ i
  · rw [if_pos hj]
    exact entryAt_below hj
  · have hlow : (v.replaySnapshot i t).snapshotIndex < j := Nat.not_le.mp hj
    rw [if_neg hj, entryAt_above hlow, entryAt_above (by omega), LogView.replaySnapshot]
    dsimp only
    rw [hc.filter_above (Nat.le_of_lt hi), List.getElem?_drop]
    congr 1
    omega

theorem snapshotFor_term {req : InstallSnapshotRequest}
    (h : l.snapshotFor p l.log.lastIndex = some req) : req.term = l.ps.currentTerm := by
  rw [Node.snapshotFor] at h
  split at h
  · obtain ⟨s, _, rfl⟩ := Option.map_eq_some_iff.mp h
    rfl
  · cases h

theorem has_iff (n : Node) : has l n = true ↔
    entryAt n.log.toLogView l.log.lastIndex = entryAt l.log.toLogView l.log.lastIndex :=
  decide_eq_true_iff

theorem has_of_log {n m : Node} (h : m.log.toLogView = n.log.toLogView) :
    has l m = has l n := by
  rw [has, has, h]

variable [Crc32]

theorem Group.last (h : Group l f) : l.log.snapshotIndex < l.log.lastIndex ∧
    ∃ e, entryAt l.log.toLogView l.log.lastIndex = some e := by
  have hlen := List.length_pos_iff.mpr h.entry
  have hlow : l.log.snapshotIndex < l.log.lastIndex := by
    rw [LogView.lastIndex]
    omega
  exact ⟨hlow, entryAt_held hlow le_rfl⟩

theorem Group.has_last (h : Group l f) {n : Node} (hn : has l n = true) :
    n.log.snapshotIndex < l.log.lastIndex := by
  obtain ⟨_, e, he⟩ := h.last
  rw [has_iff, he] at hn
  exact (entryAt_bounds hn).1

/-- What a peer that does not get a snapshot answers, and what it has then. -/
theorem append_answer (h : Group l f) (hp : p ∈ l.peers)
    (hnone : l.snapshotFor p l.log.lastIndex = none) :
    ((f p).begin.onAppendEntries (request l p)).1.success = accepts l f p ∧
      (accepts l f p = true →
        ((f p).begin.onAppendEntries (request l p)).1.term = l.ps.currentTerm) ∧
      has l ((f p).act (.appendEntries (request l p))) =
        if accepts l f p then keeps l f p else has l (f p) := by
  have hentries : (request l p).entries = sent l.log.toLogView (firstSent l p) := by
    rw [request, build_entries h.leader, sent, firstSent]
    congr 1
    omega
  have hwal : Takes (f p).begin (request l p).entries := by
    have htakes := h.wal p hp
    rw [hentries, sent]
    refine ⟨htakes.healthy, htakes.config, ?_, ?_⟩
    · have hroom := htakes.room
      show (f p).log.wal.nextSequence + _ ≤ 2 ^ 64
      rw [List.length_drop]
      omega
    · intro e he
      exact htakes.fits e (List.mem_of_mem_drop he)
  have hmem : accepts l f p = true ↔ Passes (f p) (request l p) := by
    rw [accepts, hnone]
    exact decide_eq_true_iff
  obtain ⟨hsuccess, hview, hsame⟩ := onAppendEntries_view hwal
  have hiff : ((f p).begin.onAppendEntries (request l p)).1.success = accepts l f p := by
    rw [Bool.eq_iff_iff, hsuccess, hmem]
    rfl
  refine ⟨hiff, ?_, ?_⟩
  · intro hacc
    have hpass := hmem.mp hacc
    obtain ⟨hterm, ⟨hnot, _⟩ | ⟨_, _, hn⟩⟩ :=
      onAppendEntries_cases (f p).begin (request l p)
    · exact absurd hpass hnot
    · rw [hterm, hn]
      dsimp only
      rw [(storeEntries_quiet _ _).ps]
      exact acceptLeader_currentTerm (n := (f p).begin) hpass.1 _
  · by_cases hacc : accepts l f p = true
    · have hpass := hmem.mp hacc
      obtain ⟨hlast, _⟩ := h.last
      have hfirst : firstSent l p = max (nextFor l p) (l.log.snapshotIndex + 1) := rfl
      -- without entries the request asks for the entry before the next index
      have hreach : l.log.lastIndex < firstSent l p →
          firstSent l p ≤ (f p).log.lastIndex + 1 := by
        intro hout
        have hprev : (request l p).prevLogIndex = nextFor l p - 1 := rfl
        have hknown := termAt_le_last (hpass.2 (by omega))
        omega
      have habove : l.log.snapshotIndex < firstSent l p := by omega
      have hstored := stored_has h.leader hlast habove hreach
      rw [if_pos hacc, keeps, hnone, Bool.eq_iff_iff, has_iff, decide_eq_true_iff, Node.act,
        hview hpass, hentries]
      exact hstored
    · rw [if_neg hacc]
      apply has_of_log
      have hnot : ¬ Passes (f p).begin (request l p) := fun hpass => hacc (hmem.mpr hpass)
      exact congrArg RaftLog.toLogView (hsame hnot).1

/-- The same for a peer that gets the snapshot. -/
theorem install_answer (h : Group l f) (hp : p ∈ l.peers) {req : InstallSnapshotRequest}
    (hsome : l.snapshotFor p l.log.lastIndex = some req) :
    ((f p).begin.onInstallSnapshot req).1.success = accepts l f p ∧
      (accepts l f p = true →
        ((f p).begin.onInstallSnapshot req).1.term = l.ps.currentTerm) ∧
      has l ((f p).act (.installSnapshot req)) =
        if accepts l f p then keeps l f p else has l (f p) := by
  have hterm := snapshotFor_term hsome
  have hmem : accepts l f p = true ↔ (f p).ps.currentTerm ≤ req.term := by
    rw [accepts, hsome]
    exact decide_eq_true_iff
  have hkeeps : keeps l f p =
      (has l (f p) && decide (req.lastIncludedIndex < l.log.lastIndex)) := by
    rw [keeps, hsome]
  by_cases hacc : accepts l f p = true
  · have hle : (f p).begin.ps.currentTerm ≤ req.term := hmem.mp hacc
    by_cases hold : req.lastIncludedIndex ≤ (f p).log.snapshotIndex
    · have heq := onInstallSnapshot_old hle hold
      rw [Node.act, heq, if_pos hacc, hacc]
      refine ⟨rfl, fun _ => hterm, ?_⟩
      have hlog := (acceptLeader_log (f p).begin req.term req.leaderId).1
      rw [has_of_log (congrArg RaftLog.toLogView hlog), hkeeps]
      have hbegin : has l (f p).begin = has l (f p) := rfl
      rw [hbegin]
      cases hhas : has l (f p) with
      | false => rfl
      | true =>
        have hlow := h.has_last hhas
        rw [Bool.true_and]
        exact (decide_eq_true (by omega)).symm
    · have hnew : (f p).begin.log.snapshotIndex < req.lastIncludedIndex := Nat.not_le.mp hold
      have hwal : Takes (f p).begin l.log.entries := by
        have htakes := h.wal p hp
        exact ⟨htakes.healthy, htakes.config, htakes.room, htakes.fits⟩
      obtain ⟨hresp, _, hview, _⟩ := onInstallSnapshot_new hle hnew hwal (h.room p hp)
      rw [hresp, if_pos hacc, hacc]
      refine ⟨rfl, fun _ => hterm, ?_⟩
      have hentry := entryAt_replaySnapshot (h.peers p hp) hnew
        req.lastIncludedTerm l.log.lastIndex
      have hview : ((f p).act (.installSnapshot req)).log.toLogView =
        (f p).log.toLogView.replaySnapshot req.lastIncludedIndex req.lastIncludedTerm := hview
      obtain ⟨_, e, he⟩ := h.last
      rw [hkeeps, has, hview, hentry]
      by_cases hlow : l.log.lastIndex ≤ req.lastIncludedIndex
      · rw [if_pos hlow, he, decide_eq_false (Nat.not_lt.mpr hlow), Bool.and_false]
        rfl
      · rw [if_neg hlow, decide_eq_true (Nat.not_le.mp hlow), Bool.and_true]
        rfl
  · have hgt : req.term < (f p).begin.ps.currentTerm := by
      by_contra hnot
      exact hacc (hmem.mpr (Nat.not_lt.mp hnot))
    have heq : (f p).begin.onInstallSnapshot req =
        (⟨(f p).begin.ps.currentTerm, false⟩, (f p).begin) := by
      rw [Node.onInstallSnapshot, if_pos hgt]
    rw [Node.act, heq, if_neg hacc]
    refine ⟨?_, fun hyes => absurd hyes hacc, rfl⟩
    exact (Bool.eq_false_iff.mpr hacc).symm

variable {fate : NodeId → Fate}

theorem has_after (h : Group l f) (hp : p ∈ l.peers) :
    has l (after l f fate p) =
      if fate p ≠ .lost ∧ accepts l f p = true then keeps l f p else has l (f p) := by
  rw [after]
  by_cases hlost : fate p = .lost
  · rw [if_pos hlost, if_neg (fun hyes => hyes.1 hlost)]
  · rw [if_neg hlost]
    cases hcall : l.snapshotFor p l.log.lastIndex with
    | none =>
      obtain ⟨_, _, hhas⟩ := append_answer h hp hcall
      simp only [hhas, ne_eq, hlost, not_false_eq_true, true_and]
    | some req =>
      obtain ⟨_, _, hhas⟩ := install_answer h hp hcall
      simp only [hhas, ne_eq, hlost, not_false_eq_true, true_and]

theorem appendAcks_results (h : Group l f) :
    appendAcks (appendResults l f fate) =
      (l.peers.filter (fun p => (l.snapshotFor p l.log.lastIndex).isNone &&
        (decide (fate p = .heard) && accepts l f p))).length := by
  rw [appendAcks, appendResults, Node.appendCalls, List.map_map, List.filter_map,
    List.length_map, List.filter_filter]
  congr 1
  apply List.filter_congr
  intro p hp
  cases hcall : l.snapshotFor p l.log.lastIndex with
  | some req => simp
  | none =>
    obtain ⟨hsuccess, _⟩ := append_answer h hp hcall
    rw [request] at hsuccess
    by_cases hheard : fate p = .heard <;> simp [hheard, hsuccess]

theorem snapshotAcks_results (h : Group l f) :
    snapshotAcks (snapshotResults l f fate) =
      (l.peers.filter (fun p => !(l.snapshotFor p l.log.lastIndex).isNone &&
        (decide (fate p = .heard) && accepts l f p))).length := by
  have hall : ∀ ps : List NodeId, (∀ p ∈ ps, p ∈ l.peers) →
      snapshotAcks ((ps.filterMap (fun p =>
        (l.snapshotFor p l.log.lastIndex).map (fun req => (p, req)))).map (fun c =>
          (c.1, if fate c.1 = .heard then some ((f c.1).begin.onInstallSnapshot c.2).1
            else none))) =
        (ps.filter (fun p => !(l.snapshotFor p l.log.lastIndex).isNone &&
          (decide (fate p = .heard) && accepts l f p))).length := by
    intro ps hps
    induction ps with
    | nil => rfl
    | cons p ps ih =>
      have ih := ih (fun q hq => hps q (List.mem_cons_of_mem _ hq))
      cases hcall : l.snapshotFor p l.log.lastIndex with
      | none =>
        rw [List.filterMap_cons_none (by rw [hcall]; rfl), ih,
          List.filter_cons_of_neg (by simp [hcall])]
      | some req =>
        obtain ⟨hsuccess, _⟩ := install_answer h (hps p (List.mem_cons_self ..)) hcall
        simp only [List.filterMap_cons, hcall, Option.map_some, List.map_cons]
        rw [snapshotAcks_cons, ih]
        by_cases hyes : fate p = .heard ∧ accepts l f p = true
        · rw [List.filter_cons_of_pos (by simp [hcall, hyes.1, hyes.2]), List.length_cons]
          rw [if_pos (by simp [hyes.1, hsuccess, hyes.2])]
          exact Nat.add_comm _ _
        · rw [List.filter_cons_of_neg (by simpa [hcall] using hyes)]
          rw [if_neg (by
            by_cases hheard : fate p = .heard
            · simpa [hheard, hsuccess] using hyes
            · simp [hheard])]
          exact Nat.zero_add _
  exact hall l.peers (fun _ hp => hp)

/-- Peers whose success the leader hears of. -/
theorem acks_results (h : Group l f) :
    appendAcks (appendResults l f fate) + snapshotAcks (snapshotResults l f fate) =
      (l.peers.filter (fun p => decide (fate p = .heard) && accepts l f p)).length := by
  rw [appendAcks_results h, snapshotAcks_results h]
  apply Nat.le_antisymm
  · apply length_filter_add_le
    · intro p _ hyes
      exact ((Bool.and_eq_true ..).mp hyes).2
    · intro p _ hyes
      exact ((Bool.and_eq_true ..).mp hyes).2
    · intro p _ ⟨hnone, hsome⟩
      simp only [Bool.and_eq_true] at hnone hsome
      simp [hnone.1] at hsome
  · apply length_filter_le_add
    intro p _ hyes
    cases hcall : (l.snapshotFor p l.log.lastIndex).isNone with
    | true => exact Or.inl hyes
    | false => exact Or.inr hyes

theorem acks_eq (h : Group l f)
    (hall : ∀ p ∈ l.peers, fate p = .heard → accepts l f p = true) :
    acks l f fate = 1 + (l.peers.filter (fun p => decide (fate p = .heard))).length := by
  have hterm : ∀ t, Reported t (appendResults l f fate) (snapshotResults l f fate) →
      t ≤ l.ps.currentTerm := by
    rintro t (⟨p, r, hr, rfl⟩ | ⟨p, r, hr, rfl⟩)
    · simp only [appendResults, Node.appendCalls, List.map_map, List.mem_map, List.mem_filter,
        Function.comp_apply, Prod.mk.injEq, Option.isNone_iff_eq_none] at hr
      obtain ⟨q, ⟨hq, hcall⟩, rfl, hr⟩ := hr
      by_cases hheard : fate q = .heard
      · rw [if_pos hheard, Option.some.injEq] at hr
        obtain ⟨_, hle, _⟩ := append_answer h hq hcall
        rw [← hr]
        exact Nat.le_of_eq (hle (hall q hq hheard))
      · rw [if_neg hheard] at hr
        cases hr
    · simp only [snapshotResults, Node.snapshotCalls, List.mem_map, List.mem_filterMap,
        Option.map_eq_some_iff, Prod.mk.injEq] at hr
      obtain ⟨c, ⟨q, hq, req, hcall, rfl⟩, rfl, hr⟩ := hr
      by_cases hheard : fate q = .heard
      · rw [if_pos hheard, Option.some.injEq] at hr
        obtain ⟨_, hle, _⟩ := install_answer h hq hcall
        rw [← hr]
        exact Nat.le_of_eq (hle (hall q hq hheard))
      · rw [if_neg hheard] at hr
        cases hr
  rw [acks, finishReplication_of_le hterm, Nat.add_assoc, acks_results h]
  congr 2
  apply List.filter_congr
  intro p hp
  by_cases hheard : fate p = .heard
  · rw [hall p hp hheard, Bool.and_true]
  · rw [decide_eq_false hheard, Bool.false_and]

theorem acks_le (h : Group l f) :
    acks l f fate ≤ 1 +
      (l.peers.filter (fun p => decide (fate p = .heard) && accepts l f p)).length := by
  obtain ⟨hle, _⟩ := finishReplication_cases l l.log.lastIndex (appendResults l f fate)
    (snapshotResults l f fate)
  rw [Nat.add_assoc, acks_results h] at hle
  exact hle

/-- A write is acknowledged with a quorum of acks. -/
theorem quorum_of_ok {i : ℕ} (hok : (l.finishWrite l.log.lastIndex (appendResults l f fate)
    (snapshotResults l f fate)).1 = .ok i) : l.quorum ≤ acks l f fate := by
  by_contra hlow
  have hless := Nat.not_le.mp hlow
  rw [acks, ← finishReplication_quorum] at hless
  rw [Node.finishWrite] at hok
  dsimp only at hok
  rw [Node.commitWrite, if_pos hless] at hok
  cases hok

/-- Every success heard of counts an ack and at most one more holder. -/
theorem lacking_le_refusing (h : Group l f)
    (hsound : AcksSound l f) : (lacking l f).length ≤ (refusing l f).length := by
  let fate : NodeId → Fate := fun p => if accepts l f p then .heard else .lost
  have hheard : ∀ p, fate p = .heard ↔ accepts l f p = true := by
    intro p
    cases hacc : accepts l f p <;> simp [fate, hacc]
  obtain ⟨hle, _⟩ := hsound fate
  rw [acks_eq h (fun p _ => (hheard p).mp), holders] at hle
  have hacks : (lacking l f).length +
      (l.peers.filter (fun p => accepts l f p && keeps l f p)).length ≤
        (l.peers.filter (fun p => decide (fate p = .heard))).length := by
    apply length_filter_add_le
    · intro p _ hyes
      exact decide_eq_true ((hheard p).mpr ((Bool.and_eq_true ..).mp hyes).1)
    · intro p _ hyes
      exact decide_eq_true ((hheard p).mpr ((Bool.and_eq_true ..).mp hyes).1)
    · intro p _ hboth
      cases hkeeps : keeps l f p <;> simp [hkeeps] at hboth
  have hholders : (l.peers.filter (fun p => has l (after l f fate p))).length ≤
      (refusing l f).length +
        (l.peers.filter (fun p => accepts l f p && keeps l f p)).length := by
    apply length_filter_le_add
    intro p hp hhas
    rw [has_after h hp] at hhas
    cases hacc : accepts l f p with
    | true =>
      have hnot : fate p ≠ .lost := by
        rw [(hheard p).mpr hacc]
        decide
      rw [if_pos ⟨hnot, hacc⟩] at hhas
      exact Or.inr hhas
    | false =>
      rw [if_neg (fun hyes => Bool.false_ne_true (hacc.symm.trans hyes.2))] at hhas
      exact Or.inl hhas
  omega

end

/-- A leader at term 1 of a cluster of three. -/
def leaderOf (v : LogView) (wal : Wal) (snapshot : Option Snapshot)
    (nextIndex : NodeId → Option ℕ) : Node :=
  { bare 1 v wal with
    peers := ["n2", "n3"], role := .leader, nextIndex := nextIndex, snapshot := snapshot }

theorem new_wal_takes_entry [Crc32] : ∃ wal : Wal, ∀ n : Node, n.log.wal = wal →
    n.log.toLogView.Contiguous → ∀ i, Takes n [⟨1, i, [7]⟩] ∧
      n.log.wal.nextSequence + 2 < 2 ^ 64 := by
  obtain ⟨wal, hwal⟩ := new_wal_takes
  refine ⟨wal, ?_⟩
  intro n hn hc i
  have hfits : ∀ es : List LogEntry, (∀ e ∈ es, e.data = [7]) →
      ∀ e ∈ es, FitsSegment e.data := by
    intro es hes e he
    rw [hes e he]
    simp [FitsSegment, walConfig, WalEntry.headerSize]
  have hroom := (hwal n hn hc (List.replicate 2 ⟨1, i, [7]⟩) (by simp)
    (hfits _ (by simp))).room
  rw [List.length_replicate] at hroom
  exact ⟨hwal n hn hc _ (by simp) (hfits _ (by simp)), by omega⟩

end RaftNodeAcks
