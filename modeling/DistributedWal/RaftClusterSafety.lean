import DistributedWal.RaftNodeReads
import DistributedWal.RaftClusterWrites

/-! # What a cluster guarantees

One leader in each term, over every run. Log matching, durability of acknowledged writes and
committed reads, over every run that keeps clear of five steps: appending below the snapshot
point, keeping a tail that the snapshot does not continue in, deleting records of the tail
that is kept, counting an installation as an acknowledgement and reading above the commit
index. Each of them breaks a guarantee.
-/
namespace RaftClusterSafety

open LittleEndianCodec WalSegment WalEngine WalContents ReplicatedLog ReplicatedLogContents
open WalEntry (Crc32 ieee WalError)
open RaftPersistentState RaftSnapshot RaftNode RaftNodeFrame RaftNodeHandlers RaftNodeLogs
open RaftNodeVotes RaftNodeAppends RaftNodeMoves RaftNodeEffects RaftCluster
open RaftNodeAgreement (LogsMatch entryAt_above entryAt_bounds)
open RaftNodeReads (entryAt_push entryAt_push_last)
open RaftNodeWrites (Elected)
open RaftElections (lastElected elected_unique)
open RaftClusterLogs RaftClusterRuns RaftClusterProgress RaftClusterWrites
open LogMatching LeaderCompleteness Quorums FullLog

section

variable [Crc32] {c : Cluster} {es : List Event} {s : State}

/-- Over every run of every cluster: a term has at most one leader, and a node that leads
is in the term of its last election. -/
theorem one_leader_per_term (run : ClusterRun c anything es s) :
    (∀ t a b, Event.elected a t ∈ es → Event.elected b t ∈ es → a = b) ∧
    ∀ id ∈ c.members, ∀ n, (s.processes id).node = some n → n.role = .leader →
      lastElected id es = some n.ps.currentTerm := by
  obtain ⟨votes, h⟩ := RaftElections.invariant_of_run run
  refine ⟨?_, h.leaders⟩
  intro t a b ha hb
  exact elected_unique run ha hb

end

/-- "n2" has voted for "n1", starts again and is elected by "n3", while "n1" still leads in
its own term. -/
theorem one_leader_per_term_restarted :
    ∃ s₁ s img x y, @ClusterRun ieee trio anything [.elected "n1" 1] s₁ ∧
      s₁.processes "n2" = .crashed img ∧
      @ClusterRun ieee trio anything [.elected "n1" 1, .elected "n2" 2] s ∧
      s.processes "n1" = .running x ∧ x.role = .leader ∧
      s.processes "n2" = .running y ∧ y.role = .leader ∧
      lastElected "n1" [.elected "n1" 1, .elected "n2" 2] = some x.ps.currentTerm ∧
      lastElected "n2" [.elected "n1" 1, .elected "n2" 2] = some y.ps.currentTerm := by
  let _ : Crc32 := ieee
  have hok := raftConditions_allowsPlain False False
  obtain ⟨s₀, x, y₀, z, run₀, h⟩ := run_led hok
  obtain ⟨s₁, s₂, y₁, run₁, hdown, run₂, hup, hy, hrole, hothers⟩ :=
    run_restarted run₀ (by decide) h.voter h.inStep.peer (by decide)
  have hupx : s₂.processes "n1" = .running x := (hothers "n1" (by decide)).trans h.leader
  have hupz : s₂.processes "n3" = .running z := (hothers "n3" (by decide)).trans h.third
  obtain ⟨s, y, z', run, hbetween, hupy, _, _, _, helected, _⟩ :=
    run_election (a := "n2") (b := "n3") run₂ hok (by decide) (by decide) (by decide) hup hupz
      hy h.waits (by rw [hrole]; decide) (by decide) (by decide) (by decide)
      (Or.inr ⟨rfl, le_rfl⟩)
  have hupx' : s.processes "n1" = .running x := by
    rw [hbetween.others "n1" (by decide) (by decide)]
    exact hupx
  have hleads := (one_leader_per_term run.anything).2
  exact ⟨s₁, s, _, x, y, run₁.anything, hdown, run.anything, hupx', h.inStep.counting.role, hupy,
    helected.role, hleads "n1" (by decide) x (by rw [hupx']; rfl) h.inStep.counting.role,
    hleads "n2" (by decide) y (by rw [hupy]; rfl) helected.role⟩

/-- The entry that a log keeps is the one of the whole log. -/
theorem entryAt_full {v : LogView} {full : List LogEntry} (h : Represents v full) {i : ℕ}
    {e : LogEntry} (he : entryAt v i = some e) : 0 < i ∧ full[i - 1]? = some e := by
  obtain ⟨hlow, _⟩ := entryAt_bounds he
  rw [entryAt_above hlow, h.entries, List.getElem?_drop] at he
  rw [show v.snapshotIndex + (i - v.snapshotIndex - 1) = i - 1 by omega] at he
  exact ⟨Nat.zero_lt_of_lt hlow, he⟩

theorem entryAt_kept {v : LogView} {full : List LogEntry} (h : Represents v full)
    {i : ℕ} {e : LogEntry} (hlow : v.snapshotIndex < i) (he : full[i - 1]? = some e) :
    entryAt v i = some e := by
  rw [entryAt_above hlow, h.entries, List.getElem?_drop,
    show v.snapshotIndex + (i - v.snapshotIndex - 1) = i - 1 by omega]
  exact he

/-- Logs that stand for agreeing ones match. -/
theorem logsMatch_of_agree {v w : LogView} {l l' : List LogEntry} (h : Represents v l)
    (h' : Represents w l') (hagree : Agree LogEntry.term l l') : LogsMatch v w := by
  intro j t hj hj' k hk
  obtain ⟨hpos, _, x, hx, hxt⟩ := h.termAt_some hj
  obtain ⟨_, _, y, hy, hyt⟩ := h'.termAt_some hj'
  have hsame : ∀ i ≤ j, 0 < i → l[i - 1]? = l'[i - 1]? := by
    intro i hi hipos
    exact hagree.below hx hy (hxt.trans hyt.symm) (by omega)
  constructor
  · intro a b ha hb
    obtain ⟨hkpos, _, e, he, rfl⟩ := h.termAt_some ha
    obtain ⟨_, _, f, hf, rfl⟩ := h'.termAt_some hb
    rw [hsame k hk hkpos, hf] at he
    exact congrArg LogEntry.term (Option.some.inj he).symm
  · intro e f he hf
    obtain ⟨hkpos, he⟩ := entryAt_full h he
    obtain ⟨_, hf⟩ := entryAt_full h' hf
    rw [hsame k hk hkpos, hf] at he
    exact (Option.some.inj he).symm

section

variable [Crc32] {backed reads : Prop} {c : Cluster} {H : LogHistory} {es : List Event} {s : State}
  {a b : NodeId} {x y : Node}

theorem alive_of_invariant (h : Invariant backed reads c H es s) (ha : a ∈ c.members)
    (hx : (s.processes a).node = some x) : ∃ l, Alive backed c H a x l :=
  process_member (h.processes a ha) hx

/-- Over every run of every cluster: two logs that agree on the term of an entry agree up to
it. -/
theorem log_matching (run : ClusterRun c (raftConditions False False) es s)
    (ha : a ∈ c.members) (hb : b ∈ c.members) (hx : (s.processes a).node = some x)
    (hy : (s.processes b).node = some y) : LogsMatch x.log.toLogView y.log.toLogView := by
  obtain ⟨H, h⟩ := invariant_of_run run
  obtain ⟨l, hl⟩ := alive_of_invariant h ha hx
  obtain ⟨l', hl'⟩ := alive_of_invariant h hb hy
  have hagree := hl.member.state.now.matching.agree hl'.member.state.now.matching
  exact logsMatch_of_agree hl.member.state.represents hl'.member.state.represents hagree

end

/-- "n1" has an entry of its own behind the one it shares with "n2", which has been elected by
"n3" and has an entry of the next term there. -/
theorem log_matching_conflict :
    ∃ es s x y, @ClusterRun ieee trio (@raftConditions False False ieee) es s ∧
      (s.processes "n1").node = some x ∧ (s.processes "n2").node = some y ∧
      x.log.entries = [⟨1, 1, [7]⟩, ⟨1, 2, [8]⟩] ∧ y.log.entries = [⟨1, 1, [7]⟩, ⟨2, 2, [9]⟩] ∧
      LogsMatch x.log.toLogView y.log.toLogView := by
  let _ : Crc32 := ieee
  have hok := raftConditions_allowsPlain False False
  obtain ⟨s₁, x₁, y₁, z, run₁, h⟩ := run_led_write hok
  obtain ⟨x, run₂, hwritten⟩ := run_writing (k := 997) run₁ hok (by decide) h.leader
    h.inStep.leader h.inStep.counting.role (fitsSegment_byte 8) (by decide) (by decide)
  have hx := written_standing hwritten h.inStep.leader
  set s₂ := State.after s₁ "n1" x _ with hs₂
  have hupy : s₂.processes "n2" = .running y₁ := by
    rw [hs₂, State.after_of_ne _ _ _ (by decide)]
    exact h.voter
  have hupz : s₂.processes "n3" = .running z := by
    rw [hs₂, State.after_of_ne _ _ _ (by decide)]
    exact h.third
  obtain ⟨s₃, y₃, z', run₃, hbetween, hupy₃, _, hy₃, _, helected, _⟩ :=
    run_election (a := "n2") (b := "n3") run₂ hok (by decide) (by decide) (by decide) hupy hupz
      h.inStep.peer h.waits (by rw [h.inStep.follows]; decide) (by decide) (by decide) (by decide)
      (Or.inl (by decide))
  obtain ⟨y, run, hwritten'⟩ := run_writing (k := 997) run₃ hok (by decide) hupy₃ hy₃
    helected.role (fitsSegment_byte 9) (by decide) (by decide)
  have hy := written_standing hwritten' hy₃
  set s := State.after s₃ "n2" y _ with hs
  have hnx : (s.processes "n1").node = some x := by
    rw [hs, State.after_of_ne _ _ _ (by decide), hbetween.others "n1" (by decide) (by decide), hs₂,
      State.after_self]
    rfl
  have hny : (s.processes "n2").node = some y := by
    rw [hs, State.after_self]
    rfl
  refine ⟨_, s, x, y, run, hnx, hny, congrArg LogView.entries hx.view,
    congrArg LogView.entries hy.view, ?_⟩
  exact log_matching run (a := "n1") (b := "n2") (by decide) (by decide) hnx hny

/-- A late request for the first entry puts it at index 101, where the leader has another. -/
theorem late_append_diverges :
    ¬ ∀ (c : Cluster) (es : List Event) (s : State), @ClusterRun ieee c anything es s →
      ∀ a ∈ c.members, ∀ b ∈ c.members, ∀ x y, (s.processes a).node = some x →
        (s.processes b).node = some y → LogsMatch x.log.toLogView y.log.toLogView := by
  intro hclaim
  let _ : Crc32 := ieee
  obtain ⟨es, s, x, y, z, w, run, h⟩ := run_installed_last
  obtain ⟨q, hq⟩ := List.mem_iff_getElem?.mp h.late
  have hthird : Standing trio "n3" ⟨[], 100, 1⟩ 1 (8 + 2) z := h.installed
  obtain ⟨z', resp, run', _, _, hz, _⟩ :=
    run_append run (by decide) h.third hthird hq rfl (by decide) (by decide) (fitsSegment_byte 7)
      (fun hpos => absurd hpos (by decide)) trivial
  set s' := State.after s "n3" z' _ with hs'
  have hx : (s'.processes "n1").node = some x := by
    rw [hs', State.after_of_ne _ _ _ (by decide), h.leader]
    rfl
  have hz' : (s'.processes "n3").node = some z' := by
    rw [hs', State.after_self]
    rfl
  have hmatch := hclaim trio es s' run' "n1" (by decide) "n3" (by decide) x z' hx hz'
  rw [h.log.view, hz.view] at hmatch
  have hentries := (hmatch 101 1 (by decide) (by decide) 101 le_rfl).2
  exact absurd (hentries ⟨1, 101, [8]⟩ ⟨1, 101, [7]⟩ (by decide) (by decide)) (by decide)

section

variable [Crc32] {backed reads : Prop} {c : Cluster} {H : LogHistory} {es : List Event} {s : State}
  {a b : NodeId} {x y : Node}

/-- What is committed is in the log of a later leader. -/
theorem committed_in_later_leader (h : Invariant True reads c H es s) {t i : ℕ}
    (hc : H.Committed LogEntry.term (quorums c) t i) {l : List LogEntry}
    (hl : Alive True c H a x l) (hlead : x.role = .leader) (hlt : t < x.ps.currentTerm) :
    H.front t i <+: l := by
  obtain ⟨helected, hleads⟩ := hl.leads hlead
  rw [← hleads]
  exact (completeness h.lawful (h.chosen trivial) hc helected hlt).trans (h.lawful.grown _)

omit [Crc32] in
/-- An acknowledged entry, as part of a committed log. -/
theorem committed_front {t i : ℕ} {e : LogEntry}
    (hc : H.Committed LogEntry.term (quorums c) t i) (he : (H.llog t)[i - 1]? = some e) :
    H.CommittedUpTo LogEntry.term (quorums c) t (H.front t i) ∧
      (H.front t i)[i - 1]? = some e := by
  have hpos := hc.pos
  refine ⟨Or.inr ⟨t, le_rfl, i, hc, List.prefix_refl _⟩, ?_⟩
  rw [History.front, List.getElem?_take_of_lt (by omega)]
  exact he

/-- Over every run of every cluster: an acknowledged entry is in the log, or below the
snapshot, of every leader of a later term, and no node has committed another one. -/
theorem acknowledged_writes_durable (run : ClusterRun c (raftConditions True False) es s)
    {i t : ℕ} {data : Bytes} (hack : Event.acknowledged a i t data ∈ es) (hb : b ∈ c.members)
    (hy : (s.processes b).node = some y) :
    (y.role = .leader → t < y.ps.currentTerm →
        i ≤ y.log.snapshotIndex ∨ entryAt y.log.toLogView i = some ⟨t, i, data⟩) ∧
      (i ≤ y.commitIndex →
        ∀ e, entryAt y.log.toLogView i = some e → e = ⟨t, i, data⟩) := by
  obtain ⟨H, h⟩ := invariant_of_run run
  obtain ⟨l, hl⟩ := alive_of_invariant h hb hy
  have hrep : Represents y.log.toLogView l := hl.member.state.represents
  obtain ⟨hc, hentry⟩ := h.events _ hack trivial
  obtain ⟨hup, hat⟩ := committed_front hc hentry
  constructor
  · intro hlead hlt
    rcases Nat.lt_or_ge y.log.snapshotIndex i with hlow | hhidden
    · right
      have hfront := committed_in_later_leader h hc hl hlead hlt
      exact entryAt_kept hrep hlow (prefix_getElem? hfront hat)
    · exact Or.inl hhidden
  · intro hcommit e he
    obtain ⟨hpos, he⟩ := entryAt_full hrep he
    have hheld := (hl.member.committed trivial).2
    refine committed_entry h.lawful (h.chosen trivial) hheld hup ?_ hat
    rw [List.getElem?_take_of_lt (by omega)]
    exact he

end

/-- "n2" stores the first entry, and leads in the next term. -/
theorem acknowledged_writes_durable_successor :
    ∃ es s y, @ClusterRun ieee trio (@raftConditions True False ieee) es s ∧
      Event.acknowledged "n1" 1 1 [7] ∈ es ∧ (s.processes "n2").node = some y ∧
      y.role = .leader ∧ 1 < y.ps.currentTerm ∧
      (1 ≤ y.log.snapshotIndex ∨ entryAt y.log.toLogView 1 = some ⟨1, 1, [7]⟩) := by
  let _ : Crc32 := ieee
  obtain ⟨s₁, x, y₁, z, run₁, h⟩ := run_led_write (raftConditions_allowsPlain True False)
  obtain ⟨s, y, z', run, _, hupy, _, hy, _, helected, _⟩ :=
    run_election (b := "n3") run₁ (raftConditions_allowsPlain True False) (by decide) (by decide)
      (by decide) h.voter h.third h.inStep.peer h.waits (by rw [h.inStep.follows]; decide)
      (by decide) (by decide) (by decide) (Or.inl (by decide))
  have hny : (s.processes "n2").node = some y := by rw [hupy]; rfl
  have hack : Event.acknowledged "n1" 1 1 [7] ∈
      [Event.elected "n1" 1, .acknowledged "n1" 1 1 [7]] ++ [.elected "n2" (1 + 1)] :=
    List.mem_append_left _ (List.mem_cons_of_mem _ (List.mem_singleton_self _))
  have hlater : 1 < y.ps.currentTerm := by
    rw [hy.term]
    decide
  refine ⟨_, s, y, run, hack, hny, helected.role, hlater, ?_⟩
  exact (acknowledged_writes_durable run hack (by decide) hny).1 helected.role hlater

/-- Entry 101 is acknowledged for the snapshot that "n3" has installed, and nobody but the
leader has it: "n2" leads without it in the next term. -/
theorem acknowledged_write_lost :
    ¬ ∀ (c : Cluster) (es : List Event) (s : State), @ClusterRun ieee c anything es s →
      ∀ a i t data, Event.acknowledged a i t data ∈ es → ∀ b ∈ c.members, ∀ y,
        (s.processes b).node = some y →
          (y.role = .leader → t < y.ps.currentTerm →
            i ≤ y.log.snapshotIndex ∨ entryAt y.log.toLogView i = some ⟨t, i, data⟩) ∧
          (i ≤ y.commitIndex →
            ∀ e, entryAt y.log.toLogView i = some e → e = ⟨t, i, data⟩) := by
  intro hclaim
  let _ : Crc32 := ieee
  obtain ⟨es, s, x, y, z, w, run, h⟩ := run_installed_last
  have hlast : w.lastIndex = 100 := h.longer.last
  have hpoint : w.snapshotIndex = 0 := h.longer.point
  obtain ⟨s', y', z', run', _, hupy, _, hy, _, helected, _⟩ :=
    run_election (b := "n3") run anything_allowsPlain (by decide) (by decide) (by decide) h.second
      h.third h.full h.installed (by rw [h.follows]; decide) le_rfl (by decide) (by decide)
      (Or.inr ⟨h.longer.term.symm, Nat.le_of_eq hlast.symm⟩)
  have hny : (s'.processes "n2").node = some y' := by rw [hupy]; rfl
  have hlater : 1 < y'.ps.currentTerm := by
    rw [hy.term]
    decide
  have hholds := (hclaim trio _ s' run' "n1" 101 1 [8] (List.mem_append_left _ h.acked) "n2"
    (by decide) y' hny).1 helected.role hlater
  rw [hy.view] at hholds
  rcases hholds with hhidden | hentry
  · omega
  · have hbound := (entryAt_bounds hentry).2
    omega

section

variable [Crc32] {backed reads : Prop} {c : Cluster} {H : LogHistory} {es : List Event} {s : State}
  {a b : NodeId} {x y : Node}

/-- Over every run of every cluster: where a read has returned an entry, no acknowledgement
and no read tells another one. -/
theorem reads_committed (run : ClusterRun c (raftConditions True True) es s) {fromIndex : ℕ}
    {entries : List LogEntry} (hserved : Event.served a fromIndex entries ∈ es) {e : LogEntry}
    (he : e ∈ entries) :
    (∀ id t data, Event.acknowledged id e.index t data ∈ es → ⟨t, e.index, data⟩ = e) ∧
      ∀ id k entries', Event.served id k entries' ∈ es → ∀ f ∈ entries',
        f.index = e.index → f = e := by
  obtain ⟨H, h⟩ := invariant_of_run run
  have hsettled : ∀ id k es', Event.served id k es' ∈ es → ∀ f ∈ es', Settled c H f :=
    fun id k es' hev f hf => (h.events _ hev trivial trivial f hf).2
  obtain ⟨u, l, hup, hat⟩ := hsettled _ _ _ hserved e he
  constructor
  · intro id t data hack
    obtain ⟨hc, hentry⟩ := h.events _ hack trivial
    obtain ⟨hup', hat'⟩ := committed_front hc hentry
    exact committed_entry h.lawful (h.chosen trivial) hup' hup hat' hat
  · intro id k entries' hev f hf hindex
    obtain ⟨u', l', hup', hat'⟩ := hsettled _ _ _ hev f hf
    rw [hindex] at hat'
    exact committed_entry h.lawful (h.chosen trivial) hup' hup hat' hat

end

/-- A read of the first entry, which is committed. -/
theorem reads_committed_first :
    ∃ es s, @ClusterRun ieee trio (@raftConditions True True ieee) es s ∧
      Event.served "n1" 1 [⟨1, 1, [7]⟩] ∈ es ∧
      (∀ id t data, Event.acknowledged id 1 t data ∈ es → (⟨t, 1, data⟩ : LogEntry) = ⟨1, 1, [7]⟩) ∧
      ∀ id k entries', Event.served id k entries' ∈ es → ∀ f ∈ entries',
        f.index = 1 → f = ⟨1, 1, [7]⟩ := by
  let _ : Crc32 := ieee
  obtain ⟨s₁, x, _, _, run₁, h⟩ := run_led_write (raftConditions_allowsPlain True True)
  have hx := h.inStep.leader
  have hview : (LogView.empty.push 1 [7]).entriesFrom 1 = [⟨1, 1, [7]⟩] := by decide
  have hcommitted : ReadsCommitted x 1 := by
    refine Or.inr (Or.inr ?_)
    rw [hx.view, h.commitIndex]
  obtain ⟨s, run, _⟩ := run_read run₁ (by decide) h.leader hx (by decide) 1
    ⟨trivial, trivial, fun _ => hcommitted⟩
  rw [hview] at run
  have hserved : Event.served "n1" 1 [⟨1, 1, [7]⟩] ∈
      [Event.elected "n1" 1, .acknowledged "n1" 1 1 [7]] ++ [.served "n1" 1 [⟨1, 1, [7]⟩]] :=
    List.mem_append_right _ (List.mem_singleton_self _)
  exact ⟨_, s, run, hserved, reads_committed run hserved (List.mem_singleton_self _)⟩

/-- A leader that reaches nobody shows its entry, and the next one shows another at the same
index. -/
theorem uncommitted_entry_read :
    ¬ ∀ (c : Cluster) (es : List Event) (s : State), @ClusterRun ieee c anything es s →
      ∀ a k entries, Event.served a k entries ∈ es → ∀ e ∈ entries,
        (∀ id t data, Event.acknowledged id e.index t data ∈ es →
            (⟨t, e.index, data⟩ : LogEntry) = e) ∧
          ∀ id k' entries', Event.served id k' entries' ∈ es → ∀ f ∈ entries',
            f.index = e.index → f = e := by
  intro hclaim
  let _ : Crc32 := ieee
  obtain ⟨s₁, x₁, y₁, z, run₁, h⟩ := run_led anything_allowsPlain
  obtain ⟨s₂, x₂, run₂, hsame₂, hupx₂, hx₂⟩ :=
    run_lost (k := 999) run₁ (by decide) (by decide) h.leader h.inStep.leader
      h.inStep.counting.role (fitsSegment_byte 7) (by decide) (by decide)
  obtain ⟨s₃, run₃, hsame₃⟩ :=
    run_read run₂ (by decide) hupx₂ hx₂ (by decide) 1 trivial
  have hup₂ : s₃.processes "n2" = .running y₁ := by
    rw [hsame₃ "n2" (by decide), hsame₂ "n2" (by decide)]
    exact h.voter
  have hup₃ : s₃.processes "n3" = .running z := by
    rw [hsame₃ "n3" (by decide), hsame₂ "n3" (by decide)]
    exact h.third
  obtain ⟨s₄, y₄, z₄, run₄, _, hupy₄, _, hy₄, _, helected, _⟩ :=
    run_election (b := "n3") run₃ anything_allowsPlain (by decide) (by decide) (by decide) hup₂ hup₃
      h.inStep.peer h.waits (by rw [h.inStep.follows]; decide) (by decide) (by decide) (by decide)
      (Or.inr ⟨rfl, le_rfl⟩)
  obtain ⟨s₅, y₅, run₅, _, hupy₅, hy₅⟩ :=
    run_lost (k := 999) run₄ (by decide) (by decide) hupy₄ hy₄ helected.role
      (fitsSegment_byte 8) (by decide) (by decide)
  obtain ⟨s₆, run₆, _⟩ :=
    run_read run₅ (by decide) hupy₅ hy₅ (by decide) 1 trivial
  have hfirst : (LogView.empty.push 1 [7]).entriesFrom 1 = [⟨1, 1, [7]⟩] := by decide
  have hsecond : (LogView.empty.push (1 + 1) [8]).entriesFrom 1 = [⟨2, 1, [8]⟩] := by decide
  rw [hfirst, hsecond] at run₆
  have hread := (hclaim trio _ s₆ run₆ "n1" 1 [⟨1, 1, [7]⟩] (by simp) ⟨1, 1, [7]⟩ (by simp)).2 "n2" 1
    [⟨2, 1, [8]⟩] (by simp) ⟨2, 1, [8]⟩ (by simp) rfl
  exact absurd hread (by decide)

end RaftClusterSafety
