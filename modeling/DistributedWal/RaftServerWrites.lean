import DistributedWal.RaftServerRequests
import DistributedWal.RaftClusterOrder

/-! # What becomes of a client's write

A write becomes at most one entry, whatever crashes and elections there are, and none where
the client is told that the server is not the leader.
-/
namespace RaftServerWrites

open LittleEndianCodec ReplicatedLog RaftPersistentState RaftNode RaftNodeVotes RaftCluster
open RaftNodeHandlers RaftNodeMoves
open RaftServer RaftServerRefinement RaftServerRequests
open RaftClusterLogs RaftClusterRuns RaftClusterOrder RaftClusterProgress RaftClusterWrites
open RaftNodeAppends RaftClusterSafety
open WalEntry (Crc32 ieee)

variable {c : Cluster} {ok : Conditions} {es : List Event} {s s' : Net} {id : NodeId}

/-- Which request each proposed entry came of. -/
structure Minted (c : Cluster) (origins : List (ℕ × LogEntry)) (s : Net) : Prop where
  once : (origins.map Prod.fst).Nodup
  written : ∀ k e, (k, e) ∈ origins → ∃ id, s.requests[k]? = some ⟨id, .write e.data⟩
  handled : ∀ id ∈ c.members, ∀ n awaiting mailbox, s.servers id = .up n awaiting mailbox →
    ∀ k ∈ mailbox.filterMap RaftMsg.client, k ∉ origins.map Prod.fst
  writing : ∀ id ∈ c.members, ∀ n index data first reply mailbox,
    s.servers id = .up n (some (.write index data first reply)) mailbox →
    (reply, ⟨n.ps.currentTerm, index, data⟩) ∈ origins
  acknowledged : ∀ x ∈ s.told, ∀ i, x.answer = .write (.ok i) →
    ∃ e, (x.request, e) ∈ origins ∧ e.index = i
  refused : ∀ x ∈ s.told, ∀ hint, x.answer = .write (.error (.notLeader hint)) →
    x.request ∉ origins.map Prod.fst

theorem sent_write {data : Bytes} {k : ℕ} (h : Sent s id (.clientWrite data k)) :
    s.requests[k]? = some ⟨id, .write data⟩ := by
  generalize hmsg : RaftMsg.clientWrite data k = msg at h
  cases h with
  | @call src j request hcall => cases request <;> cases hmsg
  | @request j request hreq =>
    cases request with
    | write d =>
      cases hmsg
      exact hreq
    | readFrom i => cases hmsg

theorem Minted.fresh {origins : List (ℕ × LogEntry)} (h : Minted c origins s) :
    s.requests.length ∉ origins.map Prod.fst := by
  intro hk
  obtain ⟨p, hp, hlength⟩ := List.mem_map.mp hk
  obtain ⟨i, hreq⟩ := h.written p.1 p.2 hp
  have hlt := (List.getElem?_eq_some_iff.mp hreq).1
  omega

/-- The server `id` changes, and requests that waited there become the origins of `new`. -/
theorem Minted.change {origins new : List (ℕ × LogEntry)} (h : Minted c origins s) (s' : Net)
    (id : NodeId) (hrequests : s.requests <+: s'.requests)
    (hothers : ∀ i, i ≠ id → s'.servers i = s.servers i)
    (hnodup : ((origins ++ new).map Prod.fst).Nodup)
    (hnew : ∀ k e, (k, e) ∈ new → s.requests[k]? = some ⟨id, .write e.data⟩ ∧
      (∀ x ∈ s.told, x.request ≠ k) ∧
      ∀ i ∈ c.members, i ≠ id → k ∉ (s.servers i).unanswered)
    (hmailbox : ∀ n awaiting mailbox, s'.servers id = .up n awaiting mailbox →
      ∀ k ∈ mailbox.filterMap RaftMsg.client, k ∉ (origins ++ new).map Prod.fst)
    (hwriting : ∀ n index data first reply mailbox,
      s'.servers id = .up n (some (.write index data first reply)) mailbox →
      (reply, ⟨n.ps.currentTerm, index, data⟩) ∈ origins ++ new)
    {more : List Told} (htold : s'.told = s.told ++ more)
    (hacknowledged : ∀ x ∈ more, ∀ i, x.answer = .write (.ok i) →
      ∃ e, (x.request, e) ∈ origins ++ new ∧ e.index = i)
    (hrefused : ∀ x ∈ more, ∀ hint, x.answer = .write (.error (.notLeader hint)) →
      x.request ∉ (origins ++ new).map Prod.fst) : Minted c (origins ++ new) s' := by
  have hminted : ∀ k, k ∈ (origins ++ new).map Prod.fst →
      k ∈ origins.map Prod.fst ∨ ∃ e, (k, e) ∈ new := by
    intro k hk
    obtain ⟨p, hp, rfl⟩ := List.mem_map.mp hk
    rcases List.mem_append.mp hp with hp | hp
    · exact Or.inl (List.mem_map_of_mem hp)
    · exact Or.inr ⟨p.2, hp⟩
  constructor
  · exact hnodup
  · intro k e hk
    rcases List.mem_append.mp hk with hk | hk
    · obtain ⟨i, hreq⟩ := h.written k e hk
      exact ⟨i, LogMatching.prefix_getElem? hrequests hreq⟩
    · exact ⟨id, LogMatching.prefix_getElem? hrequests (hnew k e hk).1⟩
  · intro i hi n awaiting mailbox hup k hk hmem
    by_cases hsame : i = id
    · subst hsame
      exact hmailbox n awaiting mailbox hup k hk hmem
    · rw [hothers i hsame] at hup
      rcases hminted k hmem with hold | ⟨e, he⟩
      · exact h.handled i hi n awaiting mailbox hup k hk hold
      · apply (hnew k e he).2.2 i hi hsame
        rw [hup]
        exact List.mem_append_right _ hk
  · intro i hi n index data first reply mailbox hup
    by_cases hsame : i = id
    · subst hsame
      exact hwriting n index data first reply mailbox hup
    · rw [hothers i hsame] at hup
      exact List.mem_append_left _ (h.writing i hi n index data first reply mailbox hup)
  · intro x hx i hanswer
    rw [htold] at hx
    rcases List.mem_append.mp hx with hx | hx
    · obtain ⟨e, he, hindex⟩ := h.acknowledged x hx i hanswer
      exact ⟨e, List.mem_append_left _ he, hindex⟩
    · exact hacknowledged x hx i hanswer
  · intro x hx hint hanswer hmem
    rw [htold] at hx
    rcases List.mem_append.mp hx with hx | hx
    · rcases hminted _ hmem with hold | ⟨e, he⟩
      · exact h.refused x hx hint hanswer hold
      · exact (hnew _ e he).2.1 x hx rfl
    · exact hrefused x hx hint hanswer hmem

/-- No write starts, and nothing is told. -/
theorem Minted.keep {origins : List (ℕ × LogEntry)} (h : Minted c origins s) (s' : Net)
    (id : NodeId) (hrequests : s.requests <+: s'.requests)
    (hothers : ∀ i, i ≠ id → s'.servers i = s.servers i)
    (hmailbox : ∀ n awaiting mailbox, s'.servers id = .up n awaiting mailbox →
      ∀ k ∈ mailbox.filterMap RaftMsg.client, k ∉ origins.map Prod.fst)
    (hwriting : ∀ n index data first reply mailbox,
      s'.servers id = .up n (some (.write index data first reply)) mailbox →
      (reply, ⟨n.ps.currentTerm, index, data⟩) ∈ origins)
    {more : List Told} (htold : s'.told = s.told ++ more)
    (hacknowledged : ∀ x ∈ more, ∀ i, x.answer = .write (.ok i) →
      ∃ e, (x.request, e) ∈ origins ∧ e.index = i)
    (hrefused : ∀ x ∈ more, ∀ hint, x.answer = .write (.error (.notLeader hint)) →
      x.request ∉ origins.map Prod.fst) : Minted c origins s' := by
  suffices hchange : Minted c (origins ++ []) s' by simpa using hchange
  apply h.change s' id hrequests hothers
  · simpa using h.once
  · exact fun _ _ hk => absurd hk List.not_mem_nil
  · simpa using hmailbox
  · simpa using hwriting
  · exact htold
  · simpa using hacknowledged
  · simpa using hrefused

section

variable {origins : List (ℕ × LogEntry)} {n : Node} {awaiting : Option Awaiting}
  {mailbox : List RaftMsg}

theorem minted_deliver (h : Minted c origins s) (hid : id ∈ c.members)
    (hup : s.servers id = .up n awaiting mailbox) (request : Request) (k : ℕ) :
    Minted c origins (s.set id (.up n awaiting (mailbox ++ [peerMsg request k]))) := by
  apply h.keep (s.set id (.up n awaiting (mailbox ++ [peerMsg request k]))) id List.prefix_rfl
    (fun i hi => s.set_of_ne _ hi) _ _ (List.append_nil _).symm (by simp) (by simp)
  · intro m aw box hup' j hj
    rw [Net.set_self] at hup'
    cases hup'
    simp only [List.filterMap_append, List.filterMap_cons, List.filterMap_nil, peerMsg_client,
      List.append_nil] at hj
    exact h.handled id hid n awaiting mailbox hup j hj
  · intro m index data first reply box hup'
    rw [Net.set_self] at hup'
    cases hup'
    exact h.writing id hid _ _ _ _ _ _ hup

theorem minted_submit (h : Minted c origins s) (hid : id ∈ c.members)
    (hup : s.servers id = .up n awaiting mailbox) (request : ClientRequest) :
    Minted c origins (s.submitted id n awaiting mailbox request) := by
  apply h.keep (s.submitted id n awaiting mailbox request) id (List.prefix_append _ _)
    (fun i hi => s.submitted_of_ne _ _ _ _ hi) _ _ (List.append_nil _).symm (by simp) (by simp)
  · intro m aw box hup' j hj
    rw [Net.submitted_self] at hup'
    cases hup'
    rw [List.filterMap_append, List.mem_append] at hj
    rcases hj with hj | hj
    · exact h.handled id hid n awaiting mailbox hup j hj
    · simp only [List.filterMap_cons, List.filterMap_nil, clientMsg_client,
        List.mem_singleton] at hj
      rw [hj]
      exact h.fresh
  · intro m index data first reply box hup'
    rw [Net.submitted_self] at hup'
    cases hup'
    exact h.writing id hid _ _ _ _ _ _ hup

theorem minted_restart (h : Minted c origins s) (n : Node) :
    Minted c origins (s.set id (.up n none [])) := by
  apply h.keep (s.set id (.up n none [])) id List.prefix_rfl (fun i hi => s.set_of_ne _ hi) _ _
    (List.append_nil _).symm (by simp) (by simp)
  · intro m aw box hup' j hj
    rw [Net.set_self] at hup'
    cases hup'
    cases hj
  · intro m index data first reply box hup'
    rw [Net.set_self] at hup'
    cases hup'

theorem minted_crash (h : Minted c origins s) (files : Image) :
    Minted c origins (s.crashed id files) := by
  apply h.keep (s.crashed id files) id List.prefix_rfl (fun i hi => s.crashed_of_ne _ hi) _ _ rfl
  · intro x hx i hanswer
    obtain ⟨k, _, rfl⟩ := List.mem_map.mp hx
    cases hanswer
  · intro x hx hint hanswer
    obtain ⟨k, _, rfl⟩ := List.mem_map.mp hx
    cases hanswer
  · intro m aw box hup'
    rw [Net.crashed_self] at hup'
    cases hup'
  · intro m index data first reply box hup'
    rw [Net.crashed_self] at hup'
    cases hup'

end

section

variable [Crc32]

theorem handleMsg_proposed (first : ℕ) (n : Node) (msg : RaftMsg) :
    (proposed n msg.action = [] ∧
        ∀ i d f r, (handleMsg id first n msg).awaiting ≠ some (.write i d f r)) ∨
      ∃ data reply index, msg = .clientWrite data reply ∧
        proposed n msg.action = [⟨n.ps.currentTerm, index, data⟩] ∧
        (handleMsg id first n msg).answers = [] ∧
        (handleMsg id first n msg).awaiting = some (.write index data first reply) := by
  cases msg with
  | clientWrite data reply =>
    rw [RaftMsg.action, proposed, handleMsg]
    cases hpair : n.begin.startWrite data with
    | mk result m =>
      cases result with
      | error e => exact Or.inl ⟨rfl, by simp⟩
      | ok index => exact Or.inr ⟨data, reply, index, rfl, rfl, rfl, rfl⟩
  | _ => exact Or.inl ⟨rfl, by simp [handleMsg]⟩

/-- A turn proposes an entry for the write that comes first in the channel, or none. -/
theorem turn_proposed {n : Node} {a : Action} {mailbox : List RaftMsg} {o : Handled}
    (h : Turn s id n a mailbox o) :
    (proposed n a = [] ∧ ∀ i d f r, o.awaiting ≠ some (.write i d f r)) ∨
      ∃ data reply index, s.servers id = .up n none (.clientWrite data reply :: mailbox) ∧
        proposed n a = [⟨n.ps.currentTerm, index, data⟩] ∧ o.answers = [] ∧
        o.awaiting = some (.write index data s.calls.length reply) := by
  cases h with
  | @message msg mailbox hup =>
    rcases handleMsg_proposed s.calls.length n msg with hnone | ⟨data, reply, index, rfl, hrest⟩
    · exact Or.inl hnone
    · exact Or.inr ⟨data, reply, index, hup, hrest⟩
  | timeout hup =>
    refine Or.inl ⟨?_, fun _ _ _ _ => handleTimeout_writing⟩
    rw [timeoutAction]
    split <;> rfl
  | votes => exact Or.inl ⟨rfl, by simp [endElection]⟩
  | acks => exact Or.inl ⟨rfl, by simp [endWrite]⟩
  | beats => exact Or.inl ⟨rfl, by simp [endHeartbeats]⟩

theorem turn_acknowledged {n : Node} {a : Action} {mailbox : List RaftMsg} {o : Handled}
    (h : Turn s id n a mailbox o) {k i : ℕ} (hk : (k, .write (.ok i)) ∈ o.answers) :
    ∃ data first, s.servers id = .up n (some (.write i data first k)) mailbox := by
  cases h with
  | @message msg mailbox hup =>
    cases msg with
    | clientWrite data reply =>
      cases hpair : n.begin.startWrite data with
      | mk result m =>
        cases result <;> simp [handleMsg, hpair] at hk
    | _ => simp [handleMsg] at hk
  | timeout =>
    rw [(handleTimeout_unanswered _ _ _).1] at hk
    cases hk
  | votes => cases hk
  | beats => cases hk
  | @acks index first reply data mailbox appends snapshots hup =>
    rw [endWrite_answers] at hk
    obtain ⟨rfl, hresult⟩ := Prod.mk.inj (List.mem_singleton.mp hk)
    injection hresult with hresult
    obtain rfl := acknowledged_index hresult.symm
    exact ⟨data, first, hup⟩

/-- Only a write that never started is told that the server is not the leader. -/
theorem turn_refused {n : Node} {a : Action} {mailbox : List RaftMsg} {o : Handled}
    (h : Turn s id n a mailbox o) {k : ℕ} {hint : Option NodeId}
    (hk : (k, .write (.error (.notLeader hint))) ∈ o.answers) :
    proposed n a = [] ∧ ∃ data, s.servers id = .up n none (.clientWrite data k :: mailbox) ∧
      (n.begin.startWrite data).1 = .error (.notLeader hint) := by
  cases h with
  | @message msg mailbox hup =>
    cases msg with
    | clientWrite data reply =>
      cases hpair : n.begin.startWrite data with
      | mk result m =>
        cases result with
        | ok index => simp [handleMsg, hpair] at hk
        | error e =>
          simp only [handleMsg, hpair] at hk
          obtain ⟨rfl, hanswer⟩ := Prod.mk.inj (List.mem_singleton.mp hk)
          cases hanswer
          exact ⟨by rw [RaftMsg.action, proposed, hpair], data, hup, by rw [hpair]⟩
    | _ => simp [handleMsg] at hk
  | timeout =>
    rw [(handleTimeout_unanswered _ _ _).1] at hk
    cases hk
  | votes => cases hk
  | beats => cases hk
  | @acks index first reply data mailbox appends snapshots hup =>
    rw [endWrite_answers, finishWrite_eq] at hk
    obtain ⟨rfl, hresult⟩ := Prod.mk.inj (List.mem_singleton.mp hk)
    injection hresult with hresult
    rcases commitWrite_cases (n.begin.finishReplication index appends snapshots).2 index
      (n.begin.finishReplication index appends snapshots).1 with ⟨herr, _⟩ | ⟨hgood, _⟩
    · rw [herr] at hresult
      cases hresult
    · rw [hgood] at hresult
      cases hresult

theorem unanswered_nodup (run : ServerRun c ok es s) (hid : id ∈ c.members) :
    (answered s id ++ (s.servers id).unanswered).Nodup := by
  have horder : InOrder s id := inOrder_of_run run id hid
  rw [horder]
  exact received_nodup s id

/-- A request that waits was not answered, and it waits at one server. -/
theorem unanswered_not_told (run : ServerRun c ok es s) (hid : id ∈ c.members) {k : ℕ}
    (hk : k ∈ (s.servers id).unanswered) : ∀ x ∈ s.told, x.request ≠ k := by
  rintro x hx rfl
  obtain ⟨request, hreq, _⟩ := fits_of_run run x hx
  obtain ⟨request', hreq'⟩ := unanswered_known (cluster_of_servers run).1 hid hk
  have htarget : x.server = id := by
    rw [hreq] at hreq'
    cases hreq'
    rfl
  have hanswered : x.request ∈ answered s id :=
    List.mem_map.mpr ⟨x, List.mem_filter.mpr ⟨hx, by simp [htarget]⟩, rfl⟩
  exact (List.nodup_append.mp (unanswered_nodup run hid)).2.2 _ hanswered _ hk rfl

theorem unanswered_apart (run : ServerRun c ok es s) (hid : id ∈ c.members) {i : NodeId}
    (hi : i ∈ c.members) {k : ℕ} (hk : k ∈ (s.servers id).unanswered)
    (hk' : k ∈ (s.servers i).unanswered) : i = id := by
  obtain ⟨request, hreq⟩ := unanswered_known (cluster_of_servers run).1 hid hk
  obtain ⟨request', hreq'⟩ := unanswered_known (cluster_of_servers run).1 hi hk'
  rw [hreq] at hreq'
  cases hreq'
  rfl

section

variable {origins : List (ℕ × LogEntry)} {n : Node} {awaiting : Option Awaiting}
  {mailbox : List RaftMsg}

/-- A turn that starts no write. -/
theorem minted_turn (h : Minted c origins s) (hid : id ∈ c.members) {a : Action} {o : Handled}
    (hturn : Turn s id n a mailbox o)
    (hnone : ∀ i d f r, o.awaiting ≠ some (.write i d f r)) :
    Minted c origins (s.after id mailbox o) := by
  obtain ⟨awaiting, taken, hup⟩ := turn_up hturn
  have htaken : ∀ k ∈ (taken ++ mailbox).filterMap RaftMsg.client, k ∉ origins.map Prod.fst :=
    h.handled id hid n awaiting _ hup
  apply h.keep (s.after id mailbox o) id List.prefix_rfl (fun i hi => s.after_of_ne _ _ hi) _ _
    rfl
  · intro x hx i hanswer
    obtain ⟨p, hp, rfl⟩ := List.mem_map.mp hx
    obtain ⟨k, answer⟩ := p
    cases hanswer
    obtain ⟨data, first, hwriting⟩ := turn_acknowledged hturn hp
    exact ⟨_, h.writing id hid _ _ _ _ _ _ hwriting, rfl⟩
  · intro x hx hint hanswer
    obtain ⟨p, hp, rfl⟩ := List.mem_map.mp hx
    obtain ⟨k, answer⟩ := p
    cases hanswer
    obtain ⟨_, data, hrefused, _⟩ := turn_refused hturn hp
    exact h.handled id hid _ _ _ hrefused k List.mem_cons_self
  · intro m aw box hup' k hk
    rw [Net.after_self] at hup'
    cases hup'
    rw [List.filterMap_append] at htaken
    exact htaken k (List.mem_append_right _ hk)
  · intro m index data first reply box hup'
    rw [Net.after_self] at hup'
    injection hup' with _ ho _
    exact absurd ho (hnone _ _ _ _)

/-- A write starts, and the server goes on with it or dies: a new origin. -/
theorem minted_write (run : ServerRun c ok es s) (h : Minted c origins s) (hid : id ∈ c.members)
    {data : Bytes} {k : ℕ} (hup : s.servers id = .up n none (.clientWrite data k :: mailbox))
    {e : LogEntry} (hdata : e.data = data) (s' : Net) (hrequests : s'.requests = s.requests)
    (hothers : ∀ i, i ≠ id → s'.servers i = s.servers i)
    (hself : ∀ m aw box, s'.servers id = .up m aw box → box = mailbox ∧
      ∀ i d f r, aw = some (.write i d f r) → (r, ⟨m.ps.currentTerm, i, d⟩) = (k, e))
    {more : List Told} (htold : s'.told = s.told ++ more)
    (hdropped : ∀ x ∈ more, x.answer = .dropped) : Minted c (origins ++ [(k, e)]) s' := by
  have hunanswered : (s.servers id).unanswered = k :: mailbox.filterMap RaftMsg.client := by
    rw [hup]
    rfl
  have hwaits : k ∈ (s.servers id).unanswered := by
    rw [hunanswered]
    exact List.mem_cons_self
  have hnodup := (List.nodup_append.mp (unanswered_nodup run hid)).2.1
  rw [hunanswered, List.nodup_cons] at hnodup
  have hold := h.handled id hid _ _ _ hup
  have hfresh : k ∉ origins.map Prod.fst := hold k List.mem_cons_self
  have hsent := (cluster_of_servers run).1.mailbox id hid _ _ _ hup _ List.mem_cons_self
  apply h.change s' id (hrequests ▸ List.prefix_rfl) hothers _ _ _ _ htold
  · intro x hx i hanswer
    rw [hdropped x hx] at hanswer
    cases hanswer
  · intro x hx hint hanswer
    rw [hdropped x hx] at hanswer
    cases hanswer
  · rw [List.map_append, List.nodup_append]
    refine ⟨h.once, List.nodup_singleton _, ?_⟩
    rintro j hj _ hk rfl
    rw [List.mem_singleton.mp hk] at hj
    exact hfresh hj
  · intro j x hj
    obtain ⟨rfl, rfl⟩ := Prod.mk.inj (List.mem_singleton.mp hj)
    rw [hdata]
    refine ⟨sent_write hsent, unanswered_not_told run hid hwaits, ?_⟩
    intro i hi hne hk
    exact hne (unanswered_apart run hid hi hwaits hk)
  · intro m aw box hup' j hj hmem
    obtain ⟨rfl, _⟩ := hself m aw box hup'
    rw [List.map_append, List.mem_append] at hmem
    rcases hmem with hmem | hmem
    · exact hold j (List.mem_cons_of_mem _ hj) hmem
    · rw [List.mem_singleton.mp hmem] at hj
      exact hnodup.1 hj
  · intro m index d first reply box hup'
    rw [(hself m _ box hup').2 index d first reply rfl]
    exact List.mem_append_right _ (List.mem_singleton_self _)

end

/-- A step makes the origins of the entries that it proposes. -/
theorem minted_step {origins : List (ℕ × LogEntry)} {e : Option Event}
    (run : ServerRun c ok es s) (h : Minted c origins s)
    (hstep : RaftServer.Step c ok s e s') : ∃ new, Minted c (origins ++ new) s' ∧
      (Proposes c ok s.cluster (new.map Prod.snd) e s'.cluster ∨
        new = [] ∧ e = none ∧ s'.cluster = s.cluster) := by
  have hmail := (cluster_of_servers run).1
  cases hstep with
  | @deliver id src k request n awaiting mailbox hid hup =>
    refine ⟨[], ?_, Or.inr ⟨rfl, rfl, set_cluster_of_process (by rw [hup]; rfl)⟩⟩
    rw [List.append_nil]
    exact minted_deliver h hid hup request k
  | @submit id n awaiting mailbox request hid hup =>
    refine ⟨[], ?_, Or.inr ⟨rfl, rfl, submitted_cluster hup request⟩⟩
    rw [List.append_nil]
    exact minted_submit h hid hup request
  | @restart id img n hid hdown hok hstart =>
    refine ⟨[], ?_, Or.inl ?_⟩
    · rw [List.append_nil]
      exact minted_restart h n
    · rw [set_cluster]
      exact .restart hid (congrArg Server.process hdown) hok hstart
  | @turn id n a mailbox o hid hturn hb hok =>
    have hpropose : Proposes c ok s.cluster (proposed n a) o.event
        (s.after id mailbox o).cluster := by
      rw [after_cluster, turn_node hturn]
      exact .act hid (turn_act hmail hid hturn) hb hok
    rcases turn_proposed hturn with ⟨hnone, hquiet⟩ | ⟨data, k, index, hup, hone, hsilent, ho⟩
    · rw [hnone] at hpropose
      refine ⟨[], ?_, Or.inl hpropose⟩
      rw [List.append_nil]
      exact minted_turn h hid hturn hquiet
    · rw [hone] at hpropose
      refine ⟨[(k, ⟨n.ps.currentTerm, index, data⟩)], ?_, Or.inl hpropose⟩
      apply minted_write run h hid hup rfl (s.after id mailbox o) rfl
        (fun i hi => s.after_of_ne _ _ hi) _ rfl
      · simp [hsilent]
      · intro m aw box hup'
        rw [Net.after_self] at hup'
        cases hup'
        refine ⟨rfl, ?_⟩
        intro i d f r hw
        rw [ho] at hw
        cases hw
        have hterm : o.node.ps.currentTerm = n.ps.currentTerm := by
          rw [turn_node hturn]
          rcases proposed_cases n a with hnone | hterm
          · rw [hone] at hnone
            cases hnone
          · exact hterm
        rw [hterm]
  | @crash id n a mailbox o img hid hturn hb hok himg =>
    have hpropose : Proposes c ok s.cluster (proposed n a) none (s.crashed id img).cluster := by
      rw [crashed_cluster]
      exact .crash hid (turn_act hmail hid hturn) hb hok himg
    rcases turn_proposed hturn with ⟨hnone, _⟩ | ⟨data, k, index, hup, hone, _, _⟩
    · rw [hnone] at hpropose
      refine ⟨[], ?_, Or.inl hpropose⟩
      rw [List.append_nil]
      exact minted_crash h img
    · rw [hone] at hpropose
      refine ⟨[(k, ⟨n.ps.currentTerm, index, data⟩)], ?_, Or.inl hpropose⟩
      apply minted_write run h hid hup rfl (s.crashed id img) rfl
        (fun i hi => s.crashed_of_ne _ hi) _ rfl
      · intro x hx
        obtain ⟨j, _, rfl⟩ := List.mem_map.mp hx
        rfl
      · intro m aw box hup'
        rw [Net.crashed_self] at hup'
        cases hup'

theorem origins_of_run (run : ServerRun c ok es s) : ∃ origins, Minted c origins s ∧
    WrittenRun c ok (origins.map Prod.snd) es s.cluster := by
  induction run with
  | start h =>
    refine ⟨[], ?_, .start (cluster_starts h)⟩
    constructor
    · exact List.nodup_nil
    · exact fun k e hk => absurd hk List.not_mem_nil
    · exact fun id hid n awaiting mailbox hup k hk => List.not_mem_nil
    · intro id hid n index data first reply mailbox hup
      obtain ⟨m, _, hstart⟩ := h.servers id hid
      rw [hstart] at hup
      cases hup
    · simp [h.told]
    · simp [h.told]
  | @step es s s' e run hstep ih =>
    obtain ⟨origins, h, hwritten⟩ := ih
    obtain ⟨new, h', hnew⟩ := minted_step run h hstep
    refine ⟨origins ++ new, h', ?_⟩
    rcases hnew with hpropose | ⟨rfl, rfl, hsame⟩
    · rw [List.map_append]
      exact hwritten.step hpropose
    · rw [hsame]
      simpa using hwritten

/-- Which requests the entries came of: no request became two entries, and no place has
entries of two requests. -/
structure OneEntryEach (c : Cluster) (origins : List (ℕ × LogEntry)) (s : Net) : Prop where
  requests : (origins.map Prod.fst).Nodup
  places : (origins.map (fun p => place p.2)).Nodup
  written : ∀ k e, (k, e) ∈ origins → ∃ id, s.requests[k]? = some ⟨id, .write e.data⟩
  logs : ∀ id ∈ c.members, ∀ n awaiting mailbox, s.servers id = .up n awaiting mailbox →
    ∀ i e, entryAt n.log.toLogView i = some e → ∃ k, (k, e) ∈ origins
  read : ∀ x ∈ s.told, ∀ entries, x.answer = .read entries → ∀ e ∈ entries,
    ∃ k, (k, e) ∈ origins
  acknowledged : ∀ x ∈ s.told, ∀ i, x.answer = .write (.ok i) →
    ∃ e, (x.request, e) ∈ origins ∧ e.index = i
  refused : ∀ x ∈ s.told, ∀ hint, x.answer = .write (.error (.notLeader hint)) →
    x.request ∉ origins.map Prod.fst

theorem told_read (run : ServerRun c ok es s) {x : Told} (hx : x ∈ s.told)
    {entries : List LogEntry} (hread : x.answer = .read entries) :
    ∃ fromIndex, .served x.server fromIndex entries ∈ es := by
  obtain ⟨request, _, hfit⟩ := fits_of_run run x hx
  rw [hread] at hfit
  cases request with
  | write data => exact hfit.elim
  | readFrom fromIndex => exact ⟨fromIndex, hfit⟩

/-- Over every run of the servers, with crashes, restarts and elections: each entry that a
server keeps or that a client reads is of one client's write, each write is at most one entry
of all the logs, an acknowledged write is the entry at its index, and a write that was told
that the server is not the leader is none. -/
theorem writes_become_entries_once (run : ServerRun c (raftConditions False False) es s) :
    ∃ origins, OneEntryEach c origins s := by
  obtain ⟨origins, h, hwritten⟩ := origins_of_run run
  obtain ⟨H, hinv, hps, hes⟩ := written_history hwritten
  have horigin : ∀ e ∈ origins.map Prod.snd, ∃ k, (k, e) ∈ origins := by
    intro e he
    obtain ⟨p, hp, rfl⟩ := List.mem_map.mp he
    exact ⟨p.1, hp⟩
  refine ⟨origins, h.once, ?_, h.written, ?_, ?_, h.acknowledged, h.refused⟩
  · simpa [Function.comp_def] using hps.once
  · intro id hid n awaiting mailbox hup i e he
    have hnode : (s.cluster.processes id).node = some n := by
      rw [cluster_process hup]
      exact Process.up_node n _
    obtain ⟨l, hlive⟩ := alive_of_invariant hinv hid hnode
    obtain ⟨_, hat⟩ := entryAt_full hlive.member.state.represents he
    exact horigin e (log_proposed hlive hps (List.mem_of_getElem? hat))
  · intro x hx entries hread e he
    obtain ⟨fromIndex, hserved⟩ := told_read run hx hread
    exact horigin e (hes _ hserved e he)

end

theorem writes_become_entries_once_first :
    ∃ es s, @ServerRun ieee trio (@raftConditions False False ieee) es s ∧
      Event.acknowledged "n1" 1 1 [7] ∈ es ∧ ∃ origins, OneEntryEach trio origins s := by
  let _ : Crc32 := ieee
  obtain ⟨_, _, _, _, run, _⟩ := run_led_write (raftConditions_allowsPlain False False)
  obtain ⟨s, hrun, _⟩ := servers_of_cluster run
  exact ⟨_, s, hrun, List.mem_cons_of_mem _ (List.mem_singleton_self _),
    writes_become_entries_once hrun⟩

end RaftServerWrites
