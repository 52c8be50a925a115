import DistributedWal.RaftClusterHistory

/-! # Writes and entries

Each entry of a log comes from one client's write, and no index is acknowledged twice. The
order of the indices follows real time: a write that starts after an acknowledgement is
never acknowledged before it.
-/
namespace RaftClusterOrder

open LittleEndianCodec WalSegment ReplicatedLog RaftPersistentState RaftSnapshot RaftNode
open WalEntry (Crc32 ieee)
open RaftNodeFrame RaftNodeHandlers RaftNodeLogs RaftNodeVotes RaftNodeAppends RaftNodeMoves
open RaftNodeEffects
open RaftCluster RaftClusterLogs RaftClusterRuns RaftClusterSafety RaftClusterProgress
open RaftClusterWrites RaftClusterHistory
open RaftElections (leader_was_elected elected_unique)
open LabelledRuns LogMatching LeaderCompleteness Quorums FullLog

/-- The term of an entry and its index. -/
def place (e : LogEntry) : ℕ × ℕ := (e.term, e.index)

/-- The term and the index of an acknowledged write. -/
def ackedPlace : Event → Option (ℕ × ℕ)
  | .acknowledged _ i t _ => some (t, i)
  | _ => none

/-- What a client sees of entries is among the proposals. -/
def FromProposals (ps : List LogEntry) : Event → Prop
  | .elected _ _ => True
  | .acknowledged _ i t data => ⟨t, i, data⟩ ∈ ps
  | .served _ _ entries => ∀ e ∈ entries, e ∈ ps

theorem FromProposals.more {ps : List LogEntry} {e : Event} (h : FromProposals ps e)
    (qs : List LogEntry) : FromProposals (ps ++ qs) e := by
  cases e with
  | elected id t => trivial
  | acknowledged id i t data => exact List.mem_append_left qs h
  | served id k entries => exact fun e he => List.mem_append_left qs (h e he)

/-- The proposals and the logs of the leaders tell the same. -/
structure Origins (H : LogHistory) (ps : List LogEntry) : Prop where
  numbered : ∀ t, Numbered (H.llog t)
  proposed : ∀ t, ∀ x ∈ H.llog t, x ∈ ps
  placed : ∀ x ∈ ps, (H.llog x.term)[x.index - 1]? = some x
  once : (ps.map place).Nodup

theorem Origins.within {H : LogHistory} {ps : List LogEntry} (h : Origins H ps) {x : LogEntry}
    (hx : x ∈ ps) : x.index ≤ (H.llog x.term).length := by
  have hlt := (List.getElem?_eq_some_iff.mp (h.placed x hx)).1
  omega

theorem origins_start : Origins noHistory [] := by
  constructor
  · intro t k x hx
    cases hx
  · intro t x hx
    exact absurd hx List.not_mem_nil
  · intro x hx
    exact absurd hx List.not_mem_nil
  · exact List.nodup_nil

theorem Origins.adds {H H' : LogHistory} {ps qs : List LogEntry} (h : Origins H ps)
    (hmore : Adds H H' qs) (hqs : (qs.map place).Nodup) : Origins H' (ps ++ qs) := by
  constructor
  · intro t k x hx
    rcases hmore.entries t k x hx with ⟨w, hw⟩ | ⟨_, hindex⟩
    · exact h.numbered w k x hw
    · exact hindex
  · intro t x hx
    obtain ⟨k, hk⟩ := List.mem_iff_getElem?.mp hx
    rcases hmore.entries t k x hk with ⟨w, hw⟩ | ⟨hnew, _⟩
    · exact List.mem_append_left _ (h.proposed w x (List.mem_of_getElem? hw))
    · exact List.mem_append_right _ hnew
  · intro x hx
    rcases List.mem_append.mp hx with hx | hx
    · exact prefix_getElem? (hmore.llog _) (h.placed x hx)
    · exact (hmore.pushed x hx).2
  · rw [List.map_append]
    refine h.once.append hqs ?_
    intro p hp hp'
    obtain ⟨x, hx, rfl⟩ := List.mem_map.mp hp
    obtain ⟨y, hy, heq⟩ := List.mem_map.mp hp'
    obtain ⟨hterm, hindex⟩ := Prod.mk.inj heq
    -- a proposal stands behind all that its term's leader had
    have hbehind := (hmore.pushed y hy).1
    have hold := h.within hx
    rw [hterm, hindex] at hbehind
    omega

/-- No write that is acknowledged already is waited for. -/
structure Answers (c : Cluster) (es : List Event) (s : State) : Prop where
  once : (es.filterMap ackedPlace).Nodup
  waiting : ∀ id ∈ c.members, ∀ n index data first,
    s.processes id = .waiting n (.write index data first) →
      (n.ps.currentTerm, index) ∉ es.filterMap ackedPlace

theorem acked_within {H : LogHistory} {ps : List LogEntry} {es : List Event}
    (hps : Origins H ps) (hes : ∀ x ∈ es, FromProposals ps x) {t i : ℕ}
    (h : (t, i) ∈ es.filterMap ackedPlace) : i ≤ (H.llog t).length := by
  obtain ⟨x, hx, hplace⟩ := List.mem_filterMap.mp h
  cases x with
  | elected id u => cases hplace
  | served id k entries => cases hplace
  | acknowledged id j u data =>
    cases hplace
    exact hps.within (hes _ hx)

/-- Nothing is acknowledged, and the member does not start a write. -/
theorem Answers.idle {c : Cluster} {es es' : List Event} {s s' : State} {id : NodeId}
    (h : Answers c es s)
    (hes : es'.filterMap ackedPlace = es.filterMap ackedPlace) {p : Process}
    (hp : ∀ m i d f, p ≠ .waiting m (.write i d f))
    (hs : ∀ i, i ≠ id → s'.processes i = s.processes i) (hs' : s'.processes id = p) :
    Answers c es' s' := by
  constructor
  · rw [hes]
    exact h.once
  · intro i hi m j d f hw
    by_cases hne : i = id
    · subst hne
      rw [hs'] at hw
      exact absurd hw (hp m j d f)
    · rw [hs i hne] at hw
      rw [hes]
      exact h.waiting i hi m j d f hw

section

variable [Crc32]

/-- A run, with the entries that its writes have made leaders append. -/
inductive WrittenRun (c : Cluster) (ok : Conditions) :
    List LogEntry → List Event → State → Prop where
  | start {s : State} (h : Starts c s) : WrittenRun c ok [] [] s
  | step {ps qs : List LogEntry} {es : List Event} {s s' : State} {e : Option Event}
      (run : WrittenRun c ok ps es s) (hstep : Proposes c ok s qs e s') :
      WrittenRun c ok (ps ++ qs) (es ++ e.toList) s'

variable {backed reads : Prop} {c : Cluster} {ok : Conditions} {H : LogHistory}
  {ps qs : List LogEntry} {es : List Event} {s s' : State} {e : Option Event} {a b id : NodeId}

theorem WrittenRun.run (h : WrittenRun c ok ps es s) : ClusterRun c ok es s := by
  induction h with
  | start h => exact .start h
  | step _ hstep ih => exact ih.step hstep.step

theorem written_of_run (run : ClusterRun c ok es s) : ∃ ps, WrittenRun c ok ps es s := by
  induction run with
  | start h => exact ⟨[], .start h⟩
  | step _ hstep ih =>
    obtain ⟨ps, run⟩ := ih
    obtain ⟨qs, hstep⟩ := proposes_of_step hstep
    exact ⟨ps ++ qs, run.step hstep⟩

theorem proposed_nodup (n : Node) (a : Action) : ((proposed n a).map place).Nodup := by
  cases a with
  | startWrite data =>
    rw [proposed]
    cases (n.begin.startWrite data).1 with
    | ok index => exact List.nodup_singleton _
    | error err => exact List.nodup_nil
  | _ => exact List.nodup_nil

theorem proposes_nodup (h : Proposes c ok s qs e s') : (qs.map place).Nodup := by
  cases h with
  | act => exact proposed_nodup _ _
  | crash => exact proposed_nodup _ _
  | restart => exact List.nodup_nil

/-- The entries of a member's log were proposed. -/
theorem log_proposed {n : Node} {l : List LogEntry} (hlive : Alive backed c H id n l)
    (h : Origins H ps) {x : LogEntry} (hx : x ∈ l) : x ∈ ps := by
  obtain ⟨k, hk⟩ := List.mem_iff_getElem?.mp hx
  have hwhole := hlive.member.state.now.matching k x hk
  have hin : x ∈ l.take (k + 1) := by
    apply List.mem_of_getElem? (i := k)
    rw [List.getElem?_take_of_lt (Nat.lt_succ_self k)]
    exact hk
  exact h.proposed _ x (hwhole.subset hin)

/-- An acknowledged write was waited for. -/
theorem acknowledged_index {n : Node} {index i : ℕ}
    {appends : List (NodeId × Option AppendEntriesResponse)}
    {snapshots : List (NodeId × Option InstallSnapshotResponse)}
    (h : (n.begin.finishWrite index appends snapshots).1 = .ok i) : i = index := by
  rw [finishWrite_eq] at h
  rcases commitWrite_cases (n.begin.finishReplication index appends snapshots).2 index
    (n.begin.finishReplication index appends snapshots).1 with ⟨herr, _⟩ | ⟨hgood, _⟩
  · rw [h] at herr
    cases herr
  · rw [h] at hgood
    exact Except.ok.inj hgood

/-- A step tells clients of proposals only. -/
theorem event_proposed (h : Invariant backed reads c H es s) (hps : Origins H ps)
    (hstep : Proposes c ok s qs e s') : ∀ x ∈ e, FromProposals ps x := by
  intro x hx
  cases hstep with
  | crash => cases hx
  | restart => cases hx
  | act hid hact hb hok =>
    cases hact with
    | finishElection =>
      dsimp only at hx
      split at hx
      · cases hx
        trivial
      · cases hx
    | @finishWrite index first data appends snapshots hup =>
      obtain ⟨l, hlive, hw⟩ := alive_waiting h hid hup
      dsimp only at hx
      split at hx
      · rename_i i hi
        cases hx
        rw [acknowledged_index hi]
        exact log_proposed hlive hps (List.mem_of_getElem? hw.entry)
      · cases hx
    | clientRead hup =>
      obtain ⟨l, hlive⟩ := alive_running h hid hup
      cases hx
      intro y hy
      exact log_proposed hlive hps (List.mem_of_getElem? (served_entry hlive hy).2)
    | _ => cases hx

/-- Every state of a run has a history whose leaders appended the proposals, and all that was
told of entries is among them. -/
theorem written_history (run : WrittenRun c (raftConditions backed reads) ps es s) :
    ∃ H, Invariant backed reads c H es s ∧ Origins H ps ∧ ∀ x ∈ es, FromProposals ps x := by
  induction run with
  | start h => exact ⟨_, Invariant.start h, origins_start, fun x hx => absurd hx List.not_mem_nil⟩
  | @step ps qs es s s' e run hstep ih =>
    obtain ⟨H, h, hps, hes⟩ := ih
    obtain ⟨H', hmore, h'⟩ := invariant_step run.run h hstep
    refine ⟨H', h', hps.adds hmore (proposes_nodup hstep), ?_⟩
    intro x hx
    rcases List.mem_append.mp hx with hx | hx
    · exact (hes x hx).more qs
    · exact (event_proposed h hps hstep x (by simpa using hx)).more qs

/-- Over every run of every cluster: no term has two proposals for one index, and whatever a
member keeps in its log or tells a client was proposed by a write. -/
theorem entries_come_from_writes (run : WrittenRun c (raftConditions False False) ps es s) :
    (ps.map place).Nodup ∧ (∀ e ∈ es, FromProposals ps e) ∧
      ∀ id ∈ c.members, ∀ n, (s.processes id).node = some n →
        ∀ i e, entryAt n.log.toLogView i = some e → e.index = i ∧ e ∈ ps := by
  obtain ⟨H, h, hps, hes⟩ := written_history run
  refine ⟨hps.once, hes, ?_⟩
  intro id hid n hn i e he
  obtain ⟨l, hlive⟩ := alive_of_invariant h hid hn
  have hrep : Represents n.log.toLogView l := hlive.member.state.represents
  obtain ⟨hpos, hat⟩ := entryAt_full hrep he
  have hindex := hrep.numbered _ _ hat
  exact ⟨by omega, log_proposed hlive hps (List.mem_of_getElem? hat)⟩

/-- The member is the only one that waits for its write. -/
theorem Answers.acknowledge (run : ClusterRun c ok es s) (h : Answers c es s)
    (hlead : ∀ i ∈ c.members, ∀ n index data first,
      s.processes i = .waiting n (.write index data first) → n.role = .leader)
    (hid : id ∈ c.members) {n : Node} {index first : ℕ} {data : Bytes}
    (hup : s.processes id = .waiting n (.write index data first)) {p : Process}
    (hp : ∀ m i d f, p ≠ .waiting m (.write i d f)) {s' : State}
    (hs : ∀ i, i ≠ id → s'.processes i = s.processes i) (hs' : s'.processes id = p) :
    Answers c (es ++ [.acknowledged id index n.ps.currentTerm data]) s' := by
  have hpart : (es ++ [Event.acknowledged id index n.ps.currentTerm data]).filterMap ackedPlace =
      es.filterMap ackedPlace ++ [(n.ps.currentTerm, index)] := by
    rw [List.filterMap_append]
    rfl
  have hnew := h.waiting id hid n index data first hup
  constructor
  · rw [hpart]
    refine h.once.append (List.nodup_singleton _) ?_
    intro q hq hq'
    obtain rfl := List.mem_singleton.mp hq'
    exact hnew hq
  · intro i hi m j d f hw
    have hne : i ≠ id := by
      rintro rfl
      rw [hs'] at hw
      exact hp m j d f hw
    rw [hs i hne] at hw
    rw [hpart, List.mem_append, List.mem_singleton]
    rintro (hold | heq)
    · exact h.waiting i hi m j d f hw hold
    · -- it would lead in the same term
      have hterm := (Prod.mk.inj heq).1
      have hnode : (s.processes i).node = some m := by rw [hw]; rfl
      have hnode' : (s.processes id).node = some n := by rw [hup]; rfl
      have hwon := leader_was_elected run hi hnode (hlead i hi m j d f hw)
      have hwon' := leader_was_elected run hid hnode' (hlead id hid n index data first hup)
      rw [hterm] at hwon
      exact hne (elected_unique run hwon hwon')

end

/-- The first write is the only proposal that is acknowledged. -/
theorem entries_come_from_writes_first :
    ∃ ps es s, @WrittenRun ieee trio (@raftConditions False False ieee) ps es s ∧
      Event.acknowledged "n1" 1 1 [7] ∈ es ∧ (ps.map place).Nodup ∧
      (∀ e ∈ es, FromProposals ps e) ∧
      ∀ id ∈ trio.members, ∀ n, (s.processes id).node = some n →
        ∀ i e, entryAt n.log.toLogView i = some e → e.index = i ∧ e ∈ ps := by
  let _ : Crc32 := ieee
  obtain ⟨s, _, _, _, run, _⟩ := run_led_write (raftConditions_allowsPlain False False)
  obtain ⟨ps, hwritten⟩ := written_of_run run
  exact ⟨ps, _, s, hwritten, List.mem_cons_of_mem _ (List.mem_singleton_self _),
    entries_come_from_writes hwritten⟩

section

variable [Crc32] {backed reads : Prop} {c : Cluster} {ok : Conditions} {H : LogHistory}
  {ps qs : List LogEntry} {es : List Event} {s s' : State} {e : Option Event} {a b id : NodeId}

/-- A write that starts stands behind the leader's log. -/
theorem started_behind {n : Node} {l : List LogEntry} {data : Bytes} {index : ℕ}
    (hlive : Alive backed c H id n l) (hwrite : (n.begin.startWrite data).1 = .ok index) :
    index = l.length + 1 ∧ n.ps.currentTerm ∈ H.elected ∧ H.llog n.ps.currentTerm = l := by
  have hrep : Represents n.log.toLogView l := hlive.member.state.represents
  rcases startWrite_cases n.begin data with ⟨⟨err, herr⟩, _⟩ | ⟨hrole, hindex, _⟩
  · rw [hwrite] at herr
    cases herr
  · rw [hwrite] at hindex
    cases hindex
    obtain ⟨helected, hleads⟩ := hlive.leads hrole
    refine ⟨?_, helected, hleads⟩
    rw [show n.begin.log.lastIndex = l.length from hrep.lastIndex]

theorem Answers.step (run : ClusterRun c ok es s) (h : Invariant backed reads c H es s)
    (hps : Origins H ps) (hes : ∀ x ∈ es, FromProposals ps x) (ha : Answers c es s)
    (hstep : Step c ok s e s') : Answers c (es ++ e.toList) s' := by
  have hlead : ∀ i ∈ c.members, ∀ n index data first,
      s.processes i = .waiting n (.write index data first) → n.role = .leader := by
    intro i hi n index data first hup
    obtain ⟨l, _, hw⟩ := alive_waiting h hi hup
    exact hw.role
  cases hstep with
  | @crash id n a o img hid hact =>
    exact ha.idle (p := .crashed img) (by simp) (fun m i d f hp => by cases hp)
      (fun i hi => State.set_of_ne s _ hi) (State.set_self ..)
  | @restart id img n hid hdown =>
    exact ha.idle (p := .running n) (by simp) (fun m i d f hp => by cases hp)
      (fun i hi => State.set_of_ne s _ hi) (State.set_self ..)
  | @act id n a o hid hact hb hallowed =>
    have hothers : ∀ i, i ≠ id → (s.after id (n.act a) o).processes i = s.processes i :=
      fun i hi => State.after_of_ne s _ _ hi
    have hself := State.after_self s id (n.act a) o
    cases hact with
    | finishElection hup =>
      refine ha.idle ?_ (fun m i d f hp => by cases hp) hothers hself
      rw [List.filterMap_append]
      dsimp only
      split
      · exact List.append_nil _
      · exact List.append_nil _
    | @writeStarted data index hup hwrite =>
      obtain ⟨l, hlive⟩ := alive_running h hid hup
      obtain ⟨hindex, _, hleads⟩ := started_behind hlive hwrite
      have hterm : (n.act (.startWrite data)).ps.currentTerm = n.ps.currentTerm :=
        congrArg PersistentState.currentTerm (startWrite_quiet n.begin data).ps
      constructor
      · simpa using ha.once
      · intro i hi m j d f hw
        by_cases hne : i = id
        · subst hne
          rw [hself] at hw
          cases hw
          intro hacked
          have hwithin := acked_within hps hes (by simpa using hacked)
          rw [hterm, hleads] at hwithin
          omega
        · rw [hothers i hne] at hw
          simpa using ha.waiting i hi m j d f hw
    | @finishWrite index first data appends snapshots hup =>
      dsimp only
      split
      · rename_i i hi
        rw [acknowledged_index hi]
        exact Answers.acknowledge run ha hlead hid hup (fun m i d f hp => by cases hp) hothers hself
      · refine ha.idle (by simp) (fun m i d f hp => by cases hp) hothers hself
    | clientRead hup =>
      refine ha.idle ?_ (fun m i d f hp => by cases hp) hothers hself
      rw [List.filterMap_append]
      exact List.append_nil _
    | startElection =>
      exact ha.idle (by simp) (fun m i d f hp => by cases hp) hothers hself
    | sendHeartbeats =>
      exact ha.idle (by simp) (fun m i d f hp => by cases hp) hothers hself
    | _ => exact ha.idle (by simp) (fun m i d f hp => by cases hp) hothers hself

theorem answers_of_run (run : WrittenRun c (raftConditions backed reads) ps es s) :
    Answers c es s := by
  induction run with
  | start h =>
    constructor
    · exact List.nodup_nil
    · intro id hid n index data first hup hacked
      exact absurd hacked List.not_mem_nil
  | step run hstep ih =>
    obtain ⟨H, h, hps, hes⟩ := written_history run
    exact Answers.step run.run h hps hes ih hstep.step

/-- Over every run of every cluster: no index is acknowledged twice. -/
theorem acknowledged_once (run : ClusterRun c (raftConditions True reads) es s) :
    (es.filterMap (fun e => (ackedPlace e).map Prod.snd)).Nodup := by
  obtain ⟨ps, hwritten⟩ := written_of_run run
  obtain ⟨H, h⟩ := invariant_of_run run
  have hcommitted : ∀ p ∈ es.filterMap ackedPlace, ∃ a data,
      Event.acknowledged a p.2 p.1 data ∈ es := by
    intro p hp
    obtain ⟨x, hx, hplace⟩ := List.mem_filterMap.mp hp
    cases x with
    | elected id t => cases hplace
    | served id k entries => cases hplace
    | acknowledged id i t data =>
      cases hplace
      exact ⟨id, data, hx⟩
  rw [← List.map_filterMap]
  apply (answers_of_run hwritten).once.map_on
  intro p hp q hq hindex
  obtain ⟨a, data, ha⟩ := hcommitted p hp
  obtain ⟨b, data', hb⟩ := hcommitted q hq
  -- two acknowledged entries at one index are the same
  obtain ⟨hc, hentry⟩ := h.events _ ha trivial
  obtain ⟨hc', hentry'⟩ := h.events _ hb trivial
  obtain ⟨hup, hat⟩ := committed_front hc hentry
  obtain ⟨hup', hat'⟩ := committed_front hc' hentry'
  rw [← hindex] at hup' hat'
  have hsame := committed_entry h.lawful (h.chosen trivial) hup hup' hat hat'
  exact Prod.ext (congrArg LogEntry.term hsame) hindex

end

/-- Two writes. -/
theorem acknowledged_once_two :
    ∃ es s, @ClusterRun ieee trio (@raftConditions True True ieee) es s ∧
      es.filterMap (fun e => (ackedPlace e).map Prod.snd) = [1, 2] ∧
      (es.filterMap (fun e => (ackedPlace e).map Prod.snd)).Nodup := by
  let _ : Crc32 := ieee
  have hok := raftConditions_allowsPlain True True
  obtain ⟨_, _, _, _, run₁, h⟩ := run_led_write hok
  obtain ⟨s, _, _, run, _⟩ := Led.write (k := 996) hok run₁ h (by decide) (by decide) 8
  exact ⟨_, s, run, rfl, acknowledged_once run⟩

section

variable [Crc32] {backed reads : Prop} {c : Cluster} {ok : Conditions} {H : LogHistory}
  {ps qs : List LogEntry} {es : List Event} {s s' : State} {e : Option Event} {a b id : NodeId}

/-- A proposal is the next entry of an elected leader. -/
theorem proposal_behind (h : Invariant backed reads c H es s)
    (hstep : Proposes c ok s qs e s') {x : LogEntry} (hx : x ∈ qs) :
    x.term ∈ H.elected ∧ (H.llog x.term).length < x.index := by
  have hbehind : ∀ id ∈ c.members, ∀ n a o, Act s id n a o → x ∈ proposed n a →
      x.term ∈ H.elected ∧ (H.llog x.term).length < x.index := by
    intro id hid n a o hact hx
    cases hact with
    | writeStarted hup hwrite =>
      obtain ⟨l, hlive⟩ := alive_running h hid hup
      obtain ⟨hindex, helected, hleads⟩ := started_behind hlive hwrite
      rw [proposed, hwrite] at hx
      obtain rfl := List.mem_singleton.mp hx
      refine ⟨helected, ?_⟩
      rw [hleads, hindex]
      exact Nat.lt_succ_self _
    | writeRefused hup hwrite =>
      rw [proposed, hwrite] at hx
      exact absurd hx List.not_mem_nil
    | _ => exact absurd hx List.not_mem_nil
  cases hstep with
  | act hid hact => exact hbehind _ hid _ _ _ hact hx
  | crash hid hact => exact hbehind _ hid _ _ _ hact hx
  | restart => exact absurd hx List.not_mem_nil

/-- Over every run of every cluster: an entry that is proposed after an acknowledgement, and is
acknowledged itself, has the greater index. -/
theorem later_write_greater_index (run : ClusterRun c (raftConditions True reads) es s)
    {i t : ℕ} {data : Bytes} (hack : Event.acknowledged a i t data ∈ es)
    {fs : List (List LogEntry × Option Event)}
    (k : Steps (Labelled c (raftConditions True reads)) s fs s') {x : LogEntry}
    (hx : ∃ f ∈ fs, x ∈ f.1)
    (hlater : Event.acknowledged b x.index x.term x.data ∈ (fs.map Prod.snd).reduceOption) :
    i < x.index := by
  obtain ⟨H, h⟩ := invariant_of_run run
  obtain ⟨f, hf, hx⟩ := hx
  obtain ⟨before, after, rfl⟩ := List.append_of_mem hf
  obtain ⟨r, r', k₁, hstep, k₂⟩ := k.at
  have run₁ := run_steps run (labelled_steps k₁)
  obtain ⟨H₁, hg₁, h₁⟩ := history_steps run h (labelled_steps k₁)
  obtain ⟨H₂, hg₂, h₂⟩ := history_steps run₁ h₁ (labelled_steps (.cons hstep k₂))
  have hc := hg₁.committed (quorums_upward c) (h.events _ hack trivial).1
  obtain ⟨helected, hbehind⟩ := proposal_behind h₁ hstep hx
  rcases Nat.lt_or_ge x.term t with hlt | hge
  · -- an older leader cannot commit it any more: the leader of term `t` does not have it
    have hseen : Event.acknowledged b x.index x.term x.data ∈
        es ++ (before.map Prod.snd).reduceOption ++
          ((f :: after).map Prod.snd).reduceOption := by
      rw [List.append_assoc, ← List.reduceOption_append, ← List.map_append]
      exact List.mem_append_right _ hlater
    obtain ⟨hc₂, hentry⟩ := h₂.events _ hseen trivial
    obtain ⟨_, hat⟩ := committed_front hc₂ hentry
    have ht := hc.elected h₁.lawful
    have hstart := completeness h₂.lawful (h₂.chosen trivial) hc₂ (hg₂.elected t ht) hlt
    rw [hg₂.start t ht] at hstart
    have hhas := prefix_getElem? (hstart.trans (h₁.lawful.grown t)) hat
    have hwhole := (h₁.lawful.matching t _ _ hhas).length_le
    have hin := (List.getElem?_eq_some_iff.mp hhas).1
    rw [List.length_take_of_le hin] at hwhole
    dsimp only at hwhole
    omega
  · have hin := committed_in_leader h₁.lawful (h₁.chosen trivial)
      (Or.inr ⟨t, hge, i, hc, List.prefix_refl _⟩) helected
    have hlen := hin.length_le
    rw [hc.length_front] at hlen
    omega

end

/-- Two writes, one after the other. -/
theorem later_write_greater_index_second :
    ∃ es s fs s', @ClusterRun ieee trio (@raftConditions True True ieee) es s ∧
      Event.acknowledged "n1" 1 1 [7] ∈ es ∧
      Steps (@Labelled ieee trio (@raftConditions True True ieee)) s fs s' ∧
      Event.acknowledged "n1" 2 1 [8] ∈ (fs.map Prod.snd).reduceOption ∧ 1 < 2 := by
  let _ : Crc32 := ieee
  have hok := raftConditions_allowsPlain True True
  obtain ⟨s, x, y, _, run, h⟩ := run_led_write hok
  obtain ⟨s', _, _, k, _⟩ := steps_replicated (k := 996) hok (by decide) (by decide) (by decide)
    h.leader h.voter h.inStep (by decide) (Or.inl (by decide)) (by decide : 1 < 2 ^ 64)
    (fitsSegment_byte 8) (by decide)
  have hack : Event.acknowledged "n1" 1 1 [7] ∈
      [Event.elected "n1" 1, .acknowledged "n1" 1 1 [7]] :=
    List.mem_cons_of_mem _ (List.mem_singleton_self _)
  have hlater : Event.acknowledged "n1" 2 1 [8] ∈
      [Event.acknowledged "n1" ((LogView.empty.push 1 [7]).lastIndex + 1) 1 [8]] :=
    List.mem_singleton_self _
  exact ⟨_, s, _, s', run, hack, k, hlater,
    later_write_greater_index run hack k (x := ⟨1, 2, [8]⟩)
      ⟨_, List.mem_cons_self .., List.mem_singleton_self _⟩ hlater⟩

end RaftClusterOrder
