import DistributedWal.RaftServerWrites
import DistributedWal.RaftClusterHints

/-! # What the services respond

The service for clients makes a response of what comes of the oneshot. A success names the
index of a write that the cluster acknowledged, a redirection names a member that was elected
or nobody, and everything else is an internal error.
-/
namespace RaftServerResponses

open LittleEndianCodec ReplicatedLog RaftPersistentState RaftNode RaftNodeVotes RaftCluster
open RaftNodeHandlers RaftNodeMoves RaftClusterLogs RaftClusterProgress RaftClusterWrites
open RaftServer RaftServerRefinement RaftServerRequests RaftServerWrites RaftClusterHints
open WalEntry (Crc32 ieee)

/-- What a handle returns instead of a result. -/
inductive HandleError where
  | raft (e : RaftError)
  | shutdown
  deriving DecidableEq

structure WriteResponse where
  success : Bool
  index : ℕ
  leaderHint : NodeId
  deriving DecidableEq

/-- The status carries the text of the error. -/
inductive Status where
  | internal (e : HandleError)
  deriving DecidableEq

/-- `RaftHandle::write` after the send. The oneshot of a write takes no other answer. -/
def handleWrite : Answer → Except HandleError ℕ
  | .write (.ok index) => .ok index
  | .write (.error e) => .error (.raft e)
  | _ => .error .shutdown

/-- `RaftHandle::read_from` after the send. -/
def handleReadFrom : Answer → Except HandleError (List LogEntry)
  | .read entries => .ok entries
  | _ => .error .shutdown

/-- `WalServiceImpl::write`. -/
def write (answer : Answer) : Except Status WriteResponse :=
  match handleWrite answer with
  | .ok index => .ok ⟨true, index, ""⟩
  | .error (.raft (.notLeader hint)) => .ok ⟨false, 0, hint.getD ""⟩
  | .error e => .error (.internal e)

/-- `WalServiceImpl::read_from`: the entries as they are. -/
def readFrom (answer : Answer) : Except Status (List LogEntry) :=
  match handleReadFrom answer with
  | .ok entries => .ok entries
  | .error e => .error (.internal e)

theorem write_ok {answer : Answer} {r : WriteResponse} (h : write answer = .ok r) :
    (∃ i, answer = .write (.ok i) ∧ r = ⟨true, i, ""⟩) ∨
      ∃ hint, answer = .write (.error (.notLeader hint)) ∧ r = ⟨false, 0, hint.getD ""⟩ := by
  cases answer with
  | read entries => cases h
  | dropped => cases h
  | write result =>
    cases result with
    | ok i =>
      cases h
      exact Or.inl ⟨i, rfl, rfl⟩
    | error e =>
      cases e with
      | notLeader hint =>
        cases h
        exact Or.inr ⟨hint, rfl, rfl⟩
      | quorumNotReached => cases h
      | wal e => cases h

theorem readFrom_ok {answer : Answer} {entries : List LogEntry}
    (h : readFrom answer = .ok entries) : answer = .read entries := by
  cases answer with
  | read served =>
    cases h
    rfl
  | write result => cases result <;> cases h
  | dropped => cases h

variable {c : Cluster} {ok : Conditions} {es : List Event} {s s' : Net} {id : NodeId}

/-- What a response to a write says of the cluster. -/
inductive WriteTold (c : Cluster) (es : List Event) (id : NodeId) (data : Bytes) :
    WriteResponse → Prop where
  | acknowledged {i t : ℕ} (hmem : .acknowledged id i t data ∈ es) :
      WriteTold c es id data ⟨true, i, ""⟩
  | refused : WriteTold c es id data ⟨false, 0, ""⟩
  | redirected {l : NodeId} {t : ℕ} (hl : l ∈ c.members) (hmem : .elected l t ∈ es) :
      WriteTold c es id data ⟨false, 0, l⟩

/-- The hints that clients were given. -/
def HintsGiven (c : Cluster) (es : List Event) (s : Net) : Prop :=
  ∀ x ∈ s.told, ∀ l, x.answer = .write (.error (.notLeader (some l))) →
    l ∈ c.members ∧ ∃ t, .elected l t ∈ es

theorem HintsGiven.more (h : HintsGiven c es s) (s' : Net) {es' : List Event}
    (hes : ∀ e ∈ es, e ∈ es') {more : List Told} (htold : s'.told = s.told ++ more)
    (hmore : ∀ x ∈ more, ∀ l, x.answer = .write (.error (.notLeader (some l))) →
      l ∈ c.members ∧ ∃ t, .elected l t ∈ es) : HintsGiven c es' s' := by
  intro x hx l hl
  rw [htold] at hx
  have hmem : l ∈ c.members ∧ ∃ t, .elected l t ∈ es := by
    rcases List.mem_append.mp hx with hx | hx
    · exact h x hx l hl
    · exact hmore x hx l hl
  obtain ⟨hin, t, ht⟩ := hmem
  exact ⟨hin, t, hes _ ht⟩

section

variable [Crc32]

/-- Who is told that the server is not the leader is told whom the node takes for it. -/
theorem startWrite_notLeader {n : Node} {data : Bytes} {hint : Option NodeId}
    (h : (n.startWrite data).1 = .error (.notLeader hint)) : hint = n.currentLeader := by
  rw [Node.startWrite] at h
  split at h
  · cases h
    rfl
  · split at h <;> cases h

theorem turn_hint {n : Node} {a : Action} {mailbox : List RaftMsg} {o : Handled}
    (h : Turn s id n a mailbox o) {k : ℕ} {hint : Option NodeId}
    (hk : (k, .write (.error (.notLeader hint))) ∈ o.answers) : hint = n.currentLeader := by
  obtain ⟨_, data, _, hwrite⟩ := turn_refused h hk
  have hhint : hint = n.begin.currentLeader := startWrite_notLeader hwrite
  exact hhint

theorem hintsGiven_step {e : Option Event} (run : ServerRun c ok es s) (h : HintsGiven c es s)
    (hstep : RaftServer.Step c ok s e s') : HintsGiven c (es ++ e.toList) s' := by
  have hes : ∀ x ∈ es, x ∈ es ++ e.toList := fun _ hx => List.mem_append_left _ hx
  cases hstep with
  | deliver => exact h.more _ hes (List.append_nil _).symm (by simp)
  | submit => exact h.more _ hes (List.append_nil _).symm (by simp)
  | restart => exact h.more _ hes (List.append_nil _).symm (by simp)
  | @crash id n a mailbox o img hid hturn =>
    apply h.more (s.crashed id img) hes rfl
    intro x hx l hl
    obtain ⟨k, _, rfl⟩ := List.mem_map.mp hx
    cases hl
  | @turn id n a mailbox o hid hturn =>
    apply h.more (s.after id mailbox o) hes rfl
    intro x hx l hl
    obtain ⟨⟨k, answer⟩, hp, rfl⟩ := List.mem_map.mp hx
    cases hl
    obtain ⟨awaiting, taken, hup⟩ := turn_up hturn
    have hnode : (s.cluster.processes id).node = some n := by
      rw [cluster_process hup]
      exact Process.up_node n _
    have hcluster := (cluster_of_servers run).2
    obtain ⟨t, _, hmem⟩ := (hinted_of_run hcluster).hints id hid n hnode l (turn_hint hturn hp).symm
    exact ⟨(RaftElections.elected_member hcluster hmem).2, t, hmem⟩

theorem hintsGiven_of_run (run : ServerRun c ok es s) : HintsGiven c es s := by
  induction run with
  | start h =>
    intro x hx
    rw [h.told] at hx
    cases hx
  | step run hstep ih => exact hintsGiven_step run ih hstep

/-- Over every run of the servers: a write that succeeds is acknowledged with the data of the
request, a redirection names a member that was elected, and a response to a read has what the
server showed. -/
theorem responses_sound (run : ServerRun c anything es s) :
    ∀ x ∈ s.told, ∃ request, s.requests[x.request]? = some ⟨x.server, request⟩ ∧
      (∀ r, write x.answer = .ok r →
        ∃ data, request = .write data ∧ WriteTold c es x.server data r) ∧
      ∀ entries, readFrom x.answer = .ok entries →
        ∃ fromIndex, request = .readFrom fromIndex ∧
          .served x.server fromIndex entries ∈ es := by
  intro x hx
  obtain ⟨request, hreq, hfit⟩ := fits_of_run run x hx
  refine ⟨request, hreq, ?_, ?_⟩
  · intro r hr
    rcases write_ok hr with ⟨i, hanswer, rfl⟩ | ⟨hint, hanswer, rfl⟩
    · rw [hanswer] at hfit
      cases request with
      | readFrom k => exact hfit.elim
      | write data =>
        obtain ⟨t, hmem⟩ := hfit
        exact ⟨data, rfl, .acknowledged hmem⟩
    · rw [hanswer] at hfit
      cases request with
      | readFrom k => exact hfit.elim
      | write data =>
        refine ⟨data, rfl, ?_⟩
        cases hint with
        | none => exact .refused
        | some l =>
          obtain ⟨hl, t, hmem⟩ := hintsGiven_of_run run x hx l hanswer
          exact .redirected hl hmem
  · intro entries hentries
    rw [readFrom_ok hentries] at hfit
    cases request with
    | write data => exact hfit.elim
    | readFrom k => exact ⟨k, rfl, hfit⟩

end

theorem responses_sound_first :
    ∃ es s, @ServerRun ieee trio anything es s ∧ Event.acknowledged "n1" 1 1 [7] ∈ es ∧
      ∀ x ∈ s.told, ∃ request, s.requests[x.request]? = some ⟨x.server, request⟩ ∧
        (∀ r, write x.answer = .ok r →
          ∃ data, request = .write data ∧ WriteTold trio es x.server data r) ∧
        ∀ entries, readFrom x.answer = .ok entries →
          ∃ fromIndex, request = .readFrom fromIndex ∧
            .served x.server fromIndex entries ∈ es := by
  let _ : Crc32 := ieee
  obtain ⟨_, _, _, _, run, _⟩ := run_led_write (raftConditions_allowsPlain False False)
  obtain ⟨s, hrun, _⟩ := servers_of_cluster run.anything
  exact ⟨_, s, hrun, List.mem_cons_of_mem _ (List.mem_singleton_self _), responses_sound hrun⟩

end RaftServerResponses
