import DistributedWal.RaftClusterSafety

/-! # The committed log of a cluster

All that clients are told and all that members take for committed stands in one log, which
only grows while the run goes on. More than half of the members have it, in memory or in
their files.
-/
namespace RaftClusterHistory

open LittleEndianCodec WalSegment ReplicatedLog RaftPersistentState RaftSnapshot RaftNode
open WalEntry (Crc32 ieee)
open RaftNodeLogs RaftNodeVotes RaftNodeAppends RaftNodeEffects RaftCluster
open RaftNodeAgreement (entryAt_above entryAt_bounds)
open RaftClusterLogs RaftClusterRuns RaftClusterSafety RaftClusterProgress RaftClusterWrites
open ReplicatedLogContents (open_log_spec)
open LabelledRuns LogMatching LeaderCompleteness Quorums FullLog

/-- What the log says about an event that a client has seen. -/
def BorneOut (l : List LogEntry) : Event → Prop
  | .elected _ _ => True
  | .acknowledged _ i t data => 0 < i ∧ l[i - 1]? = some ⟨t, i, data⟩
  | .served _ _ entries => ∀ e ∈ entries, 0 < e.index ∧ l[e.index - 1]? = some e

/-- Up to its commit index, what the node knows of its log is as in `l`. -/
structure CommitsPart (n : Node) (l : List LogEntry) : Prop where
  commitIndex : n.commitIndex ≤ l.length
  entries : ∀ i e, i ≤ n.commitIndex → entryAt n.log.toLogView i = some e →
    l[i - 1]? = some e
  terms : ∀ i t, i ≤ n.commitIndex → n.log.termAt i = some t →
    ∃ e, l[i - 1]? = some e ∧ e.term = t

/-- One log for all that is told and taken for committed. -/
structure Explains (c : Cluster) (l : List LogEntry) (es : List Event) (s : State) : Prop where
  numbered : Numbered l
  events : ∀ e ∈ es, BorneOut l e
  members : ∀ id ∈ c.members, ∀ n, (s.processes id).node = some n → CommitsPart n l

theorem BorneOut.later {l l' : List LogEntry} {e : Event} (h : BorneOut l e) (hl : l <+: l') :
    BorneOut l' e := by
  cases e with
  | elected id t => trivial
  | acknowledged id i t data =>
    obtain ⟨hpos, hat⟩ := h
    exact ⟨hpos, prefix_getElem? hl hat⟩
  | served id k entries =>
    intro e he
    obtain ⟨hpos, hat⟩ := h e he
    exact ⟨hpos, prefix_getElem? hl hat⟩

theorem CommitsPart.later {n : Node} {l l' : List LogEntry} (h : CommitsPart n l)
    (hl : l <+: l') : CommitsPart n l' := by
  constructor
  · exact h.commitIndex.trans hl.length_le
  · intro i e hi he
    exact prefix_getElem? hl (h.entries i e hi he)
  · intro i t hi ht
    obtain ⟨e, he, hterm⟩ := h.terms i t hi ht
    exact ⟨e, prefix_getElem? hl he, hterm⟩

theorem commitsPart_of_represents {n : Node} {l : List LogEntry}
    (hrep : Represents n.log.toLogView l) (hle : n.commitIndex ≤ l.length) :
    CommitsPart n (l.take n.commitIndex) := by
  constructor
  · exact Nat.le_of_eq (List.length_take_of_le hle).symm
  · intro i e hi he
    obtain ⟨hpos, hat⟩ := entryAt_full hrep he
    rw [List.getElem?_take_of_lt (by omega)]
    exact hat
  · intro i t hi ht
    obtain ⟨hpos, _, e, he, hterm⟩ := hrep.termAt_some ht
    refine ⟨e, ?_, hterm⟩
    rw [List.getElem?_take_of_lt (by omega)]
    exact he

section

variable [Crc32]

/-- The whole log behind what a member has, in memory or, while it is down, in its files. -/
def HasLog (c : Cluster) (id : NodeId) (l : List LogEntry) : Process → Prop
  | .running n => Represents n.log.toLogView l
  | .waiting n _ => Represents n.log.toLogView l
  | .crashed img => ∃ n,
      Node.start id (c.peers id) img.stateFile img.wal img.snapshotFile = .ok n ∧
        Represents n.log.toLogView l

/-- The member has the entry, or a snapshot point that covers it. -/
def Retains (c : Cluster) (id : NodeId) (e : LogEntry) (p : Process) : Prop :=
  ∃ n, (p.node = some n ∨ ∃ img, p = .crashed img ∧
      Node.start id (c.peers id) img.stateFile img.wal img.snapshotFile = .ok n) ∧
    (e.index ≤ n.log.snapshotIndex ∨ entryAt n.log.toLogView e.index = some e)

variable {backed reads : Prop} {c : Cluster} {ok : Conditions} {H : LogHistory}
  {es : List Event} {fs : List (Option Event)} {s s' : State} {a id : NodeId}

theorem HasLog.retains {l : List LogEntry} {p : Process} {i : ℕ} {e : LogEntry}
    (h : HasLog c id l p) (hindex : e.index = i) (he : l[i - 1]? = some e) :
    Retains c id e p := by
  have hkept : ∀ n : Node, Represents n.log.toLogView l →
      e.index ≤ n.log.snapshotIndex ∨ entryAt n.log.toLogView e.index = some e := by
    intro n hrep
    rw [hindex]
    rcases Nat.lt_or_ge n.log.snapshotIndex i with hlow | hhidden
    · exact Or.inr (entryAt_kept hrep hlow he)
    · exact Or.inl hhidden
  cases p with
  | running n => exact ⟨n, Or.inl rfl, hkept n h⟩
  | waiting n w => exact ⟨n, Or.inl rfl, hkept n h⟩
  | crashed img =>
    obtain ⟨n, hstart, hrep⟩ := h
    exact ⟨n, Or.inr ⟨img, rfl, hstart⟩, hkept n hrep⟩

/-- The rest of a run leads to a later history. -/
theorem history_steps (run : ClusterRun c (raftConditions backed reads) es s)
    (h : Invariant backed reads c H es s)
    (k : Steps (Step c (raftConditions backed reads)) s fs s') :
    ∃ H', Grows H H' ∧ Invariant backed reads c H' (es ++ fs.reduceOption) s' := by
  induction k with
  | nil => exact ⟨H, .refl, by simpa using h⟩
  | @snoc t u fs e k he ih =>
    obtain ⟨H', hg, h'⟩ := ih
    obtain ⟨ps, hstep⟩ := proposes_of_step he
    obtain ⟨H'', hmore, h''⟩ := invariant_step (run_steps run k) h' hstep
    rw [List.reduceOption_append, List.reduceOption_singleton, ← List.append_assoc]
    exact ⟨H'', hg.trans hmore.toGrows, h''⟩

/-- A member that is down can start again. -/
theorem restarts {R : List LogEntry → Prop} {S : Snapshot → Prop} {img : Image}
    (h : ImageHolds R S img) (hreopens : Reopens img) (peers : List NodeId) :
    ∃ n l, Node.start id peers img.stateFile img.wal img.snapshotFile = .ok n ∧
      Represents n.log.toLogView l ∧ R l := by
  obtain ⟨w, content, hst, hdir, hcfg⟩ := h.opens
  obtain ⟨log, hopen, _⟩ := open_log_spec hst
  rw [hcfg, hdir] at hopen
  obtain ⟨n, hstart⟩ : ∃ n,
      Node.start id peers img.stateFile img.wal img.snapshotFile = .ok n := by
    rw [Node.start, hopen]
    exact ⟨_, rfl⟩
  obtain ⟨l, hstate, _⟩ := start_state h hreopens hstart
  exact ⟨n, l, hstart, hstate.represents, hstate.now⟩

/-- Every member has a log that keeps what it has taken in. -/
theorem member_log (run : ClusterRun c (raftConditions True reads) es s)
    (h : Invariant True reads c H es s) (hid : id ∈ c.members) :
    ∃ l, HasLog c id l (s.processes id) ∧ Numbered l ∧ H.Keeps id (H.current id + 1) l := by
  have hup : ∀ n l, Alive True c H id n l → Represents n.log.toLogView l ∧ Numbered l ∧
      H.Keeps id (H.current id + 1) l := by
    intro n l halive
    have hrep : Represents n.log.toLogView l := halive.member.state.represents
    have hkeeps := halive.member.state.now.keeps trivial
    rw [← halive.member.current] at hkeeps
    exact ⟨hrep, hrep.numbered, hkeeps⟩
  have hp := h.processes id hid
  cases hdown : s.processes id with
  | running n =>
    rw [hdown] at hp
    obtain ⟨l, halive⟩ := hp
    exact ⟨l, hup n l halive⟩
  | waiting n w =>
    rw [hdown] at hp
    obtain ⟨l, halive, _⟩ := hp
    exact ⟨l, hup n l halive⟩
  | crashed img =>
    rw [hdown] at hp
    obtain ⟨hcur, himg⟩ := hp
    obtain ⟨n, l, hstart, hrep, hl⟩ := restarts himg (files_reopen run hid hdown) (c.peers id)
    have hkeeps := hl.keeps trivial
    rw [← hcur] at hkeeps
    exact ⟨l, ⟨n, hstart, hrep⟩, hrep.numbered, hkeeps⟩

/-- Whoever has taken in a committed front part still has it. -/
theorem holder_log (run : ClusterRun c (raftConditions True reads) es s)
    (h : Invariant True reads c H es s) (hid : id ∈ c.members) {t k : ℕ}
    (hc : H.Committed LogEntry.term (quorums c) t k) (hack : k ≤ H.acked id t) :
    ∃ l, HasLog c id l (s.processes id) ∧ Numbered l ∧ H.front t k <+: l := by
  obtain ⟨l, hhas, hnum, hkeeps⟩ := member_log run h hid
  have hle : t ≤ H.current id := by
    by_contra hlt
    have hnone := h.lawful.future id t (Nat.not_le.mp hlt)
    have hpos := hc.pos
    omega
  exact ⟨l, hhas, hnum, committed_kept h.lawful (h.chosen trivial) hc hack
    (Nat.lt_succ_of_le hle) hkeeps⟩

theorem committed_numbered (run : ClusterRun c (raftConditions True reads) es s)
    (h : Invariant True reads c H es s) {u : ℕ} {l : List LogEntry}
    (hl : H.CommittedUpTo LogEntry.term (quorums c) u l) : Numbered l := by
  rcases hl with rfl | ⟨t, _, k, hc, hfront⟩
  · exact Represents.empty.numbered
  · obtain ⟨holders, hmembers, hcard, hacked⟩ := hc.quorum
    obtain ⟨id, hid⟩ : ∃ id, id ∈ holders := by
      apply Finset.card_pos.mp
      omega
    obtain ⟨m, _, hnum, hpart⟩ := holder_log run h (List.mem_toFinset.mp (hmembers hid)) hc
      (hacked id hid)
    exact hnum.of_prefix (hfront.trans hpart)

/-- Every event is borne out by some log of which all is committed. -/
theorem event_borneOut (h : Invariant True True c H es s) {e : Event} (he : e ∈ es) :
    ∃ u l, H.CommittedUpTo LogEntry.term (quorums c) u l ∧ BorneOut l e := by
  have hok := h.events e he
  cases e with
  | elected id t => exact ⟨0, [], Or.inl rfl, trivial⟩
  | acknowledged id i t data =>
    obtain ⟨hc, hentry⟩ := hok trivial
    obtain ⟨hup, hat⟩ := committed_front hc hentry
    exact ⟨t, _, hup, hc.pos, hat⟩
  | served id k entries =>
    have hsettled : ∀ e ∈ entries, Settled c H e := fun e he => (hok trivial trivial e he).2
    obtain ⟨u, top, htop, hall⟩ := committed_top h.lawful (h.chosen trivial) entries hsettled
    refine ⟨u, top, htop, ?_⟩
    intro e he
    obtain ⟨l, hat, hpart⟩ := hall e he
    exact ⟨(hok trivial trivial e he).1, prefix_getElem? hpart hat⟩

/-- A committed log that explains the state, and is at least as long as `l`. -/
theorem explained (run : ClusterRun c (raftConditions True True) es s)
    (h : Invariant True True c H es s) {u : ℕ} {l : List LogEntry}
    (hl : H.CommittedUpTo LogEntry.term (quorums c) u l) :
    ∃ w top, H.CommittedUpTo LogEntry.term (quorums c) w top ∧ l <+: top ∧
      Explains c top es s := by
  have hchosen := h.chosen trivial
  have hmember : ∀ id ∈ c.members, ∃ u l, H.CommittedUpTo LogEntry.term (quorums c) u l ∧
      ∀ n, (s.processes id).node = some n → CommitsPart n l := by
    intro id hid
    cases hup : (s.processes id).node with
    | none => exact ⟨0, [], Or.inl rfl, fun n hn => by cases hn⟩
    | some n =>
      obtain ⟨m, halive⟩ := alive_of_invariant h hid hup
      obtain ⟨hle, hcommitted⟩ := halive.member.committed trivial
      refine ⟨_, _, hcommitted, ?_⟩
      intro x hx
      cases hx
      exact commitsPart_of_represents halive.member.state.represents hle
  obtain ⟨u₁, l₁, hl₁, hevents⟩ := committed_top h.lawful hchosen es
    (fun e he => event_borneOut h he)
  obtain ⟨u₂, l₂, hl₂, hmembers⟩ := committed_top h.lawful hchosen c.members hmember
  obtain ⟨w, top, htop, hall⟩ := committed_top (P := Eq) h.lawful hchosen
    [l, l₁, l₂] (by
      intro x hx
      simp only [List.mem_cons, List.not_mem_nil, or_false] at hx
      rcases hx with rfl | rfl | rfl
      · exact ⟨u, _, hl, rfl⟩
      · exact ⟨u₁, _, hl₁, rfl⟩
      · exact ⟨u₂, _, hl₂, rfl⟩)
  obtain ⟨_, rfl, hpart⟩ := hall l (by simp)
  obtain ⟨_, rfl, hpart₁⟩ := hall l₁ (by simp)
  obtain ⟨_, rfl, hpart₂⟩ := hall l₂ (by simp)
  refine ⟨w, top, htop, hpart, committed_numbered run h htop, ?_, ?_⟩
  · intro e he
    obtain ⟨m, hborne, hin⟩ := hevents e he
    exact hborne.later (hin.trans hpart₁)
  · intro id hid n hup
    obtain ⟨m, hcommits, hin⟩ := hmembers id hid
    exact (hcommits n hup).later (hin.trans hpart₂)

/-- Over every run of every cluster: one log explains all that clients were told and all
that members take for committed, and whatever happens next only adds to it. -/
theorem committed_log_grows (run : ClusterRun c (raftConditions True True) es s) :
    ∃ l, Explains c l es s ∧ ∀ fs s', Steps (Step c (raftConditions True True)) s fs s' →
      ∃ l', l <+: l' ∧ Explains c l' (es ++ fs.reduceOption) s' := by
  obtain ⟨H, h⟩ := invariant_of_run run
  obtain ⟨u, l, hl, _, hexplains⟩ := explained run h (u := 0) (Or.inl rfl)
  refine ⟨l, hexplains, ?_⟩
  intro fs s' k
  obtain ⟨H', hg, h'⟩ := history_steps run h k
  obtain ⟨_, l', _, hpart, hexplains'⟩ :=
    explained (run_steps run k) h' (hg.committedUpTo (quorums_upward c) hl)
  exact ⟨l', hpart, hexplains'⟩

end

/-- The log of a run with one acknowledged write. -/
theorem committed_log_grows_written :
    ∃ es s l, @ClusterRun ieee trio (@raftConditions True True ieee) es s ∧
      Event.acknowledged "n1" 1 1 [7] ∈ es ∧ Explains trio l es s ∧
      ∀ fs s', Steps (@Step ieee trio (@raftConditions True True ieee)) s fs s' →
        ∃ l', l <+: l' ∧ Explains trio l' (es ++ fs.reduceOption) s' := by
  let _ : Crc32 := ieee
  obtain ⟨s, _, _, _, run, _⟩ := run_led_write (raftConditions_allowsPlain True True)
  obtain ⟨l, hexplains, hgrows⟩ := committed_log_grows run
  exact ⟨_, s, l, run, List.mem_cons_of_mem _ (List.mem_singleton_self _), hexplains, hgrows⟩

section

variable [Crc32] {reads : Prop} {c : Cluster} {es : List Event} {fs : List (Option Event)}
  {s s' : State} {a : NodeId}

/-- Over every run of every cluster: more than half of the members have an acknowledged
entry, or a snapshot point that covers it, the members that are down in their files. -/
theorem acknowledged_on_majority (run : ClusterRun c (raftConditions True reads) es s)
    {i t : ℕ} {data : Bytes} (hack : Event.acknowledged a i t data ∈ es) :
    ∃ holders : List NodeId, holders.Nodup ∧ (∀ id ∈ holders, id ∈ c.members) ∧
      c.members.length < 2 * holders.length ∧
      ∀ id ∈ holders, Retains c id ⟨t, i, data⟩ (s.processes id) := by
  obtain ⟨H, h⟩ := invariant_of_run run
  obtain ⟨hc, hentry⟩ := h.events _ hack trivial
  obtain ⟨_, hat⟩ := committed_front hc hentry
  obtain ⟨holders, hmembers, hcard, hacked⟩ := hc.quorum
  refine ⟨holders.toList, holders.nodup_toList, ?_, ?_, ?_⟩
  · intro id hid
    exact List.mem_toFinset.mp (hmembers (Finset.mem_toList.mp hid))
  · rw [Finset.length_toList]
    omega
  · intro id hid
    have hmem := Finset.mem_toList.mp hid
    obtain ⟨l, hhas, _, hpart⟩ := holder_log run h (List.mem_toFinset.mp (hmembers hmem)) hc
      (hacked id hmem)
    exact hhas.retains rfl (prefix_getElem? hpart hat)

end

/-- Two of three members have the entry. -/
theorem acknowledged_on_majority_written :
    ∃ es s, @ClusterRun ieee trio (@raftConditions True True ieee) es s ∧
      Event.acknowledged "n1" 1 1 [7] ∈ es ∧
      ∃ holders : List NodeId, holders.Nodup ∧ (∀ id ∈ holders, id ∈ trio.members) ∧
        trio.members.length < 2 * holders.length ∧
        ∀ id ∈ holders, @Retains ieee trio id ⟨1, 1, [7]⟩ (s.processes id) := by
  let _ : Crc32 := ieee
  obtain ⟨s, _, _, _, run, _⟩ := run_led_write (raftConditions_allowsPlain True True)
  have hack : Event.acknowledged "n1" 1 1 [7] ∈
      [Event.elected "n1" 1, .acknowledged "n1" 1 1 [7]] :=
    List.mem_cons_of_mem _ (List.mem_singleton_self _)
  exact ⟨_, s, run, hack, acknowledged_on_majority run hack⟩

section

variable [Crc32] {c : Cluster} {es : List Event} {fs : List (Option Event)} {s s' : State}
  {a : NodeId}

/-- Over every run of every cluster: a leader keeps its log and only adds to it. -/
theorem leader_appends_only (run : ClusterRun c (raftConditions False False) es s)
    (k : Steps (Step c (raftConditions False False)) s fs s') (ha : a ∈ c.members) {x y : Node}
    (hx : (s.processes a).node = some x) (hy : (s'.processes a).node = some y)
    (hlead : x.role = .leader) (hlead' : y.role = .leader)
    (hterm : y.ps.currentTerm = x.ps.currentTerm) :
    x.log.lastIndex ≤ y.log.lastIndex ∧ ∀ i e, entryAt x.log.toLogView i = some e →
      i ≤ y.log.snapshotIndex ∨ entryAt y.log.toLogView i = some e := by
  obtain ⟨H, h⟩ := invariant_of_run run
  obtain ⟨H', hg, h'⟩ := history_steps run h k
  obtain ⟨l, hl⟩ := alive_of_invariant h ha hx
  obtain ⟨l', hl'⟩ := alive_of_invariant h' ha hy
  have hpart : l <+: l' := by
    have hgrown := hg.llog x.ps.currentTerm
    rw [(hl.leads hlead).2, ← hterm, (hl'.leads hlead').2] at hgrown
    exact hgrown
  have hrep : Represents x.log.toLogView l := hl.member.state.represents
  have hrep' : Represents y.log.toLogView l' := hl'.member.state.represents
  constructor
  · rw [hrep.lastIndex, hrep'.lastIndex]
    exact hpart.length_le
  · intro i e he
    obtain ⟨_, hat⟩ := entryAt_full hrep he
    rcases Nat.lt_or_ge y.log.snapshotIndex i with hlow | hhidden
    · exact Or.inr (entryAt_kept hrep' hlow (prefix_getElem? hpart hat))
    · exact Or.inl hhidden

end

/-- The leader of term 1 has written an entry and starts the next write. -/
theorem leader_appends_only_second :
    ∃ es s fs s' x y, @ClusterRun ieee trio (@raftConditions False False ieee) es s ∧
      Steps (@Step ieee trio (@raftConditions False False ieee)) s fs s' ∧
      (s.processes "n1").node = some x ∧ (s'.processes "n1").node = some y ∧
      x.role = .leader ∧ x.log.entries = [⟨1, 1, [7]⟩] ∧
      y.log.entries = [⟨1, 1, [7]⟩, ⟨1, 2, [8]⟩] ∧ x.log.lastIndex ≤ y.log.lastIndex ∧
      ∀ i e, entryAt x.log.toLogView i = some e →
        i ≤ y.log.snapshotIndex ∨ entryAt y.log.toLogView i = some e := by
  let _ : Crc32 := ieee
  obtain ⟨s, x, _, _, run, h⟩ := run_led_write (raftConditions_allowsPlain False False)
  have hrole := h.inStep.counting.role
  obtain ⟨y, hstep, hwritten⟩ := step_writing (k := 997) (raftConditions_allowsPlain False False)
    (by decide) h.leader h.inStep.leader hrole (fitsSegment_byte 8) (by decide) (by decide)
  have k := Steps.one (Proposes.step hstep)
  obtain ⟨log, trail, hnode⟩ := hwritten.node
  have hx : (s.processes "n1").node = some x := by rw [h.leader]; rfl
  have hview := written_standing hwritten h.inStep.leader
  refine ⟨_, s, _, _, x, y, run, k, hx, ?_, hrole, congrArg LogView.entries h.inStep.leader.view,
    congrArg LogView.entries hview.view, ?_⟩
  · rw [State.after_self]
    rfl
  · apply leader_appends_only run k (a := "n1") (by decide) hx ?_ hrole ?_ ?_
    · rw [State.after_self]
      rfl
    · rw [hnode]
      exact hrole
    · rw [hnode]

end RaftClusterHistory
