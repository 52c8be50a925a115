import DistributedWal.RaftServerRefinement
import DistributedWal.RaftClusterWrites

/-! # What comes of a client's request

A server answers its clients one after the other, in the order in which their requests came,
and drops the oneshots of the rest when it dies.
-/
namespace RaftServerRequests

open LittleEndianCodec ReplicatedLog RaftPersistentState RaftNode RaftNodeVotes RaftCluster
open RaftClusterLogs RaftClusterProgress RaftClusterWrites
open RaftServer RaftServerRefinement
open WalEntry (Crc32 ieee)

/-- The requests that got to the server, in the order of their coming. -/
def received (s : Net) (id : NodeId) : List ℕ :=
  (s.requests.zipIdx.filter (fun p => p.1.target = id)).map Prod.snd

/-- The requests that the server had an answer for, in the order of the answers. -/
def answered (s : Net) (id : NodeId) : List ℕ :=
  (s.told.filter (fun x => x.server = id)).map Told.request

/-- The answer is of the request's kind, and a success was seen. -/
def Fitting (es : List Event) (id : NodeId) : ClientRequest → Answer → Prop
  | .write data, .write (.ok i) => ∃ t, .acknowledged id i t data ∈ es
  | .write _, .write (.error _) => True
  | .readFrom fromIndex, .read entries => .served id fromIndex entries ∈ es
  | _, .dropped => True
  | _, _ => False

/-- The answer that makes the cluster show the event. -/
inductive ToldOf (s : Net) : Told → Event → Prop where
  | acknowledged {id : NodeId} {k i t : ℕ} {data : Bytes}
      (hreq : s.requests[k]? = some ⟨id, .write data⟩) :
      ToldOf s ⟨id, k, .write (.ok i)⟩ (.acknowledged id i t data)
  | served {id : NodeId} {k fromIndex : ℕ} {entries : List LogEntry}
      (hreq : s.requests[k]? = some ⟨id, .readFrom fromIndex⟩) :
      ToldOf s ⟨id, k, .read entries⟩ (.served id fromIndex entries)

/-- A client heard of the event, unless it is an election. -/
def Heard (s : Net) (e : Event) : Prop :=
  (∃ id t, e = .elected id t) ∨ ∃ x ∈ s.told, ToldOf s x e

def InOrder (s : Net) (id : NodeId) : Prop :=
  answered s id ++ (s.servers id).unanswered = received s id

def Fits (es : List Event) (s : Net) : Prop :=
  ∀ x ∈ s.told, ∃ request, s.requests[x.request]? = some ⟨x.server, request⟩ ∧
    Fitting es x.server request x.answer

variable {c : Cluster} {ok : Conditions} {es : List Event} {s s' : Net} {id : NodeId}

theorem received_submitted (n : Node) (awaiting : Option Awaiting) (mailbox : List RaftMsg)
    (request : ClientRequest) (i : NodeId) :
    received (s.submitted id n awaiting mailbox request) i =
      received s i ++ if id = i then [s.requests.length] else [] := by
  rw [received, Net.submitted, List.zipIdx_append, List.filter_append, List.map_append]
  by_cases h : id = i
  · simp [received, h]
  · simp [received, h]

theorem received_nodup (s : Net) (id : NodeId) : (received s id).Nodup := by
  have hall : (s.requests.zipIdx.map Prod.snd).Nodup := by
    rw [List.zipIdx_map_snd]
    exact List.nodup_range'
  exact hall.sublist (List.filter_sublist.map _)

/-- One server answers. -/
theorem answered_append {more : List Told} (h : s'.told = s.told ++ more)
    (hone : ∀ x ∈ more, x.server = id) (i : NodeId) :
    answered s' i = answered s i ++ if id = i then more.map Told.request else [] := by
  rw [answered, h, List.filter_append, List.map_append, ← answered]
  by_cases hsame : id = i
  · rw [if_pos hsame, List.filter_eq_self.mpr]
    intro x hx
    simp [hone x hx, hsame]
  · rw [if_neg hsame, List.filter_eq_nil_iff.mpr]
    · rfl
    · intro x hx
      simp [hone x hx, hsame]

theorem answered_after (mailbox : List RaftMsg) (o : Handled) (i : NodeId) :
    answered (s.after id mailbox o) i =
      answered s i ++ if id = i then o.answers.map Prod.fst else [] := by
  have hmap : (o.answers.map (fun p => (⟨id, p.1, p.2⟩ : Told))).map Told.request =
      o.answers.map Prod.fst := by simp
  rw [← hmap]
  apply answered_append rfl
  intro x hx
  obtain ⟨p, _, rfl⟩ := List.mem_map.mp hx
  rfl

theorem answered_crashed (files : Image) (i : NodeId) :
    answered (s.crashed id files) i =
      answered s i ++ if id = i then (s.servers id).unanswered else [] := by
  have hmap : ((s.servers id).unanswered.map (fun k => (⟨id, k, .dropped⟩ : Told))).map
      Told.request = (s.servers id).unanswered := by simp [Function.comp_def]
  rw [← hmap]
  apply answered_append rfl
  intro x hx
  obtain ⟨k, _, rfl⟩ := List.mem_map.mp hx
  rfl

theorem peerMsg_client (request : Request) (k : ℕ) : (peerMsg request k).client = none := by
  cases request <;> rfl

theorem clientMsg_client (request : ClientRequest) (k : ℕ) :
    (clientMsg request k).client = some k := by
  cases request <;> rfl

theorem Fitting.mono {es' : List Event} {request : ClientRequest} {answer : Answer}
    (h : Fitting es id request answer) (hsub : ∀ e ∈ es, e ∈ es') :
    Fitting es' id request answer := by
  cases request with
  | write data =>
    cases answer with
    | write result =>
      cases result with
      | ok i =>
        obtain ⟨t, ht⟩ := h
        exact ⟨t, hsub _ ht⟩
      | error e => trivial
    | read entries => exact h
    | dropped => trivial
  | readFrom k =>
    cases answer with
    | write result => exact h
    | read entries => exact hsub _ h
    | dropped => trivial

theorem handleTimeout_unanswered (i : NodeId) (first : ℕ) (n : Node) :
    (handleTimeout i first n).answers = [] ∧
      (handleTimeout i first n).awaiting.bind Awaiting.client = none := by
  rw [handleTimeout]
  split <;> exact ⟨rfl, rfl⟩

/-- The requests of a server that dies are known. -/
theorem unanswered_known (hmail : Mail c s) (hid : id ∈ c.members) {k : ℕ}
    (hk : k ∈ (s.servers id).unanswered) : ∃ request, s.requests[k]? = some ⟨id, request⟩ := by
  cases hup : s.servers id with
  | down files =>
    rw [hup] at hk
    cases hk
  | up n awaiting mailbox =>
    rw [hup, Server.unanswered] at hk
    rcases List.mem_append.mp hk with hk | hk
    · cases awaiting with
      | none => cases hk
      | some aw =>
        cases aw with
        | election first => cases hk
        | heartbeats first => cases hk
        | write index data first reply =>
          obtain rfl := List.mem_singleton.mp hk
          exact ⟨_, hmail.writing id hid _ _ _ _ _ _ hup⟩
    · obtain ⟨msg, hmsg, hclient⟩ := List.mem_filterMap.mp hk
      cases hmail.mailbox id hid _ _ _ hup msg hmsg with
      | call hcall =>
        rw [peerMsg_client] at hclient
        cases hclient
      | request hreq =>
        rw [clientMsg_client] at hclient
        cases hclient
        exact ⟨_, hreq⟩

theorem Fits.more (h : Fits es s) (s' : Net) {more : List Told} {e : Option Event}
    (hrequests : s.requests <+: s'.requests) (htold : s'.told = s.told ++ more)
    (hmore : ∀ x ∈ more, ∃ request, s.requests[x.request]? = some ⟨x.server, request⟩ ∧
      Fitting e.toList x.server request x.answer) : Fits (es ++ e.toList) s' := by
  intro x hx
  rw [htold] at hx
  rcases List.mem_append.mp hx with hx | hx
  · obtain ⟨request, hreq, hfit⟩ := h x hx
    exact ⟨request, LogMatching.prefix_getElem? hrequests hreq,
      hfit.mono fun _ => List.mem_append_left _⟩
  · obtain ⟨request, hreq, hfit⟩ := hmore x hx
    exact ⟨request, LogMatching.prefix_getElem? hrequests hreq,
      hfit.mono fun _ => List.mem_append_right _⟩

theorem ToldOf.later {x : Told} {e : Event} (h : ToldOf s x e)
    (hrequests : s.requests <+: s'.requests) : ToldOf s' x e := by
  cases h with
  | acknowledged hreq => exact .acknowledged (LogMatching.prefix_getElem? hrequests hreq)
  | served hreq => exact .served (LogMatching.prefix_getElem? hrequests hreq)

theorem Heard.later {e : Event} (h : Heard s e) (hrequests : s.requests <+: s'.requests)
    (htold : s.told <+: s'.told) : Heard s' e := by
  rcases h with helected | ⟨x, hx, hof⟩
  · exact Or.inl helected
  · exact Or.inr ⟨x, htold.subset hx, hof.later hrequests⟩

section

variable [Crc32]

theorem handleMsg_unanswered (i : NodeId) (first : ℕ) (n : Node) (msg : RaftMsg) :
    msg.client.toList = (handleMsg i first n msg).answers.map Prod.fst ++
      ((handleMsg i first n msg).awaiting.bind Awaiting.client).toList := by
  cases msg with
  | clientWrite data reply =>
    rw [handleMsg]
    split <;> rfl
  | _ => rfl

/-- A turn answers the requests that come first. -/
theorem turn_unanswered {n : Node} {a : Action} {mailbox : List RaftMsg} {o : Handled}
    (h : Turn s id n a mailbox o) : (s.servers id).unanswered =
      o.answers.map Prod.fst ++ (Server.up o.node o.awaiting mailbox).unanswered := by
  cases h with
  | @message msg mailbox hup =>
    have hmsg := handleMsg_unanswered id s.calls.length n msg
    rw [hup, Server.unanswered, Server.unanswered, ← List.append_assoc, ← hmsg]
    cases hclient : msg.client <;> simp [hclient]
  | timeout hup =>
    obtain ⟨hanswers, hawaiting⟩ := handleTimeout_unanswered id s.calls.length n
    rw [hup, hanswers, Server.unanswered, Server.unanswered, hawaiting]
    rfl
  | votes hup =>
    rw [hup]
    rfl
  | acks hup =>
    rw [hup]
    rfl
  | beats hup =>
    rw [hup]
    rfl

theorem inOrder_step {e : Option Event} (h : ∀ i ∈ c.members, InOrder s i)
    (hstep : RaftServer.Step c ok s e s') : ∀ i ∈ c.members, InOrder s' i := by
  intro i hi
  have hi := h i hi
  cases hstep with
  | @deliver id src k request n awaiting mailbox hid hup =>
    by_cases hsame : i = id
    · subst hsame
      rw [InOrder, hup] at hi
      have hput : Server.unanswered (.up n awaiting (mailbox ++ [peerMsg request k])) =
          Server.unanswered (.up n awaiting mailbox) := by
        simp [Server.unanswered, peerMsg_client]
      rw [InOrder, Net.set_self, hput]
      exact hi
    · rw [InOrder, Net.set_of_ne _ _ hsame]
      exact hi
  | @submit id n awaiting mailbox request hid hup =>
    rw [InOrder, received_submitted]
    by_cases hsame : i = id
    · subst hsame
      rw [InOrder, hup] at hi
      rw [Net.submitted_self, if_pos rfl, ← hi]
      simp [Server.unanswered, clientMsg_client, answered, Net.submitted, Net.set]
    · rw [Net.submitted_of_ne _ _ _ _ _ hsame, if_neg (fun h => hsame h.symm), List.append_nil]
      exact hi
  | @turn id n a mailbox o hid hturn =>
    rw [InOrder, answered_after]
    by_cases hsame : i = id
    · subst hsame
      rw [InOrder, turn_unanswered hturn] at hi
      rw [Net.after_self, if_pos rfl, List.append_assoc]
      exact hi
    · rw [Net.after_of_ne _ _ _ hsame, if_neg (fun h => hsame h.symm), List.append_nil]
      exact hi
  | @crash id n a mailbox o img hid hturn =>
    rw [InOrder, answered_crashed]
    by_cases hsame : i = id
    · subst hsame
      rw [Net.crashed_self, if_pos rfl, Server.unanswered, List.append_nil]
      exact hi
    · rw [Net.crashed_of_ne _ _ hsame, if_neg (fun h => hsame h.symm), List.append_nil]
      exact hi
  | @restart id img n hid hdown =>
    by_cases hsame : i = id
    · subst hsame
      rw [InOrder, hdown] at hi
      rw [InOrder, Net.set_self]
      exact hi
    · rw [InOrder, Net.set_of_ne _ _ hsame]
      exact hi

theorem inOrder_of_run (run : ServerRun c ok es s) : ∀ i ∈ c.members, InOrder s i := by
  induction run with
  | start h =>
    intro i hi
    obtain ⟨n, _, hup⟩ := h.servers i hi
    rw [InOrder, answered, received, h.told, h.requests, hup]
    rfl
  | step _ hstep ih => exact inOrder_step ih hstep

/-- What a handler answers fits the request. -/
theorem handleMsg_fits {first : ℕ} {n : Node} {msg : RaftMsg} (hsent : Sent s id msg)
    {p : ℕ × Answer} (hp : p ∈ (handleMsg id first n msg).answers) :
    ∃ request, s.requests[p.1]? = some ⟨id, request⟩ ∧
      Fitting (handleMsg id first n msg).event.toList id request p.2 := by
  cases hsent with
  | call hcall hsize =>
    rename_i request
    cases request <;> cases hp
  | @request k request hreq =>
    cases request with
    | readFrom fromIndex =>
      obtain rfl := List.mem_singleton.mp hp
      exact ⟨_, hreq, List.mem_singleton_self _⟩
    | write data =>
      cases hpair : n.begin.startWrite data with
      | mk result m =>
        cases result with
        | ok index =>
          simp only [clientMsg, handleMsg, hpair] at hp
          cases hp
        | error e =>
          simp only [clientMsg, handleMsg, hpair] at hp
          obtain rfl := List.mem_singleton.mp hp
          exact ⟨_, hreq, trivial⟩

section

variable (n : Node) (index : ℕ) (data : Bytes) (reply : ℕ)
  (appends : List (NodeId × Option AppendEntriesResponse))
  (snapshots : List (NodeId × Option InstallSnapshotResponse))

theorem endWrite_answers : (endWrite id n index data reply appends snapshots).answers =
    [(reply, .write (n.begin.finishWrite index appends snapshots).1)] := rfl

theorem endWrite_event : (endWrite id n index data reply appends snapshots).event =
    match (n.begin.finishWrite index appends snapshots).1 with
    | .ok i => some (.acknowledged id i n.ps.currentTerm data)
    | .error _ => none := rfl

end

theorem turn_fits {n : Node} {a : Action} {mailbox : List RaftMsg} {o : Handled}
    (hmail : Mail c s) (hid : id ∈ c.members) (h : Turn s id n a mailbox o) {p : ℕ × Answer}
    (hp : p ∈ o.answers) : ∃ request, s.requests[p.1]? = some ⟨id, request⟩ ∧
      Fitting o.event.toList id request p.2 := by
  cases h with
  | message hup =>
    exact handleMsg_fits (hmail.mailbox id hid _ _ _ hup _ List.mem_cons_self) hp
  | timeout =>
    rw [(handleTimeout_unanswered _ _ _).1] at hp
    cases hp
  | votes => cases hp
  | beats => cases hp
  | @acks index first reply data mailbox appends snapshots hup =>
    rw [endWrite_answers] at hp
    obtain rfl := List.mem_singleton.mp hp
    refine ⟨_, hmail.writing id hid _ _ _ _ _ _ hup, ?_⟩
    rw [endWrite_event]
    cases (n.begin.finishWrite index appends snapshots).1 with
    | error e => trivial
    | ok i => exact ⟨n.ps.currentTerm, List.mem_singleton_self _⟩

theorem fits_step {e : Option Event} (hmail : Mail c s) (h : Fits es s)
    (hstep : RaftServer.Step c ok s e s') : Fits (es ++ e.toList) s' := by
  cases hstep with
  | deliver => exact h.more _ List.prefix_rfl (List.append_nil _).symm (by simp)
  | submit => exact h.more _ (List.prefix_append _ _) (List.append_nil _).symm (by simp)
  | restart => exact h.more _ List.prefix_rfl (List.append_nil _).symm (by simp)
  | @turn id n a mailbox o hid hturn =>
    apply h.more (s.after id mailbox o) List.prefix_rfl rfl
    intro x hx
    obtain ⟨p, hp, rfl⟩ := List.mem_map.mp hx
    exact turn_fits hmail hid hturn hp
  | @crash id n a mailbox o img hid hturn =>
    apply h.more (s.crashed id img) List.prefix_rfl rfl
    intro x hx
    obtain ⟨k, hk, rfl⟩ := List.mem_map.mp hx
    obtain ⟨request, hreq⟩ := unanswered_known hmail hid hk
    refine ⟨request, hreq, ?_⟩
    cases request <;> trivial

theorem fits_of_run (run : ServerRun c ok es s) : Fits es s := by
  induction run with
  | start h =>
    intro x hx
    rw [h.told] at hx
    cases hx
  | step run hstep ih => exact fits_step (cluster_of_servers run).1 ih hstep

/-- What the cluster shows of a handler is its answer to a client. -/
theorem handleMsg_heard {first : ℕ} {n : Node} {msg : RaftMsg} (hsent : Sent s id msg)
    {e : Event} (he : e ∈ (handleMsg id first n msg).event) :
    ∃ p ∈ (handleMsg id first n msg).answers, ToldOf s ⟨id, p.1, p.2⟩ e := by
  cases hsent with
  | call hcall hsize =>
    rename_i request
    cases request <;> cases he
  | @request k request hreq =>
    cases request with
    | readFrom fromIndex =>
      cases he
      exact ⟨_, List.mem_singleton_self _, .served hreq⟩
    | write data =>
      cases hpair : n.begin.startWrite data with
      | mk result m =>
        cases result <;> simp [clientMsg, handleMsg, hpair] at he

theorem turn_heard {n : Node} {a : Action} {mailbox : List RaftMsg} {o : Handled}
    (hmail : Mail c s) (hid : id ∈ c.members) (h : Turn s id n a mailbox o) {e : Event}
    (he : e ∈ o.event) : Heard (s.after id mailbox o) e := by
  cases h with
  | message hup =>
    obtain ⟨p, hp, htold⟩ :=
      handleMsg_heard (hmail.mailbox id hid _ _ _ hup _ List.mem_cons_self) he
    exact Or.inr ⟨_, List.mem_append_right _ (List.mem_map_of_mem hp),
      htold.later List.prefix_rfl⟩
  | timeout =>
    rw [handleTimeout] at he
    split at he <;> cases he
  | votes =>
    simp only [endElection, Option.mem_def, Option.ite_none_right_eq_some] at he
    obtain ⟨_, he⟩ := he
    exact Or.inl ⟨_, _, (Option.some.inj he).symm⟩
  | beats => cases he
  | @acks index first reply data mailbox appends snapshots hup =>
    rw [endWrite_event] at he
    split at he
    next i hresult =>
      cases he
      refine Or.inr ⟨⟨id, reply, .write (.ok i)⟩, ?_, ?_⟩
      · rw [Net.after, endWrite_answers, hresult]
        exact List.mem_append_right _ (List.mem_singleton_self _)
      · exact .acknowledged (hmail.writing id hid _ _ _ _ _ _ hup)
    next => cases he

theorem step_grows {e : Option Event} (h : RaftServer.Step c ok s e s') :
    s.requests <+: s'.requests ∧ s.told <+: s'.told := by
  cases h with
  | submit => exact ⟨List.prefix_append _ _, List.prefix_rfl⟩
  | turn => exact ⟨List.prefix_rfl, List.prefix_append _ _⟩
  | crash => exact ⟨List.prefix_rfl, List.prefix_append _ _⟩
  | deliver => exact ⟨List.prefix_rfl, List.prefix_rfl⟩
  | restart => exact ⟨List.prefix_rfl, List.prefix_rfl⟩

theorem heard_of_run (run : ServerRun c ok es s) : ∀ e ∈ es, Heard s e := by
  induction run with
  | start h =>
    intro e he
    cases he
  | @step es s s' e run hstep ih =>
    obtain ⟨hrequests, htold⟩ := step_grows hstep
    intro x hx
    rcases List.mem_append.mp hx with hx | hx
    · exact (ih x hx).later hrequests htold
    · cases hstep with
      | turn hid hturn =>
        exact turn_heard (cluster_of_servers run).1 hid hturn (by simpa using hx)
      | _ => cases hx

/-- Each request has one answer at most, in the order of coming, and those without one are in
the channel behind. An answer is of the request's kind. The successes told are the ones that
the cluster shows. -/
theorem requests_answered_in_order (run : ServerRun c ok es s) :
    (∀ i ∈ c.members, answered s i ++ (s.servers i).unanswered = received s i) ∧
      (∀ x ∈ s.told, ∃ request, s.requests[x.request]? = some ⟨x.server, request⟩ ∧
        Fitting es x.server request x.answer) ∧ ∀ e ∈ es, Heard s e :=
  ⟨inOrder_of_run run, fits_of_run run, heard_of_run run⟩

end

/-- The servers of three members answer a write that all of the cluster goes into. -/
theorem requests_answered_in_order_first :
    ∃ es s, @ServerRun ieee trio (@raftConditions False False ieee) es s ∧
      Event.acknowledged "n1" 1 1 [7] ∈ es ∧
      (∀ i ∈ trio.members, answered s i ++ (s.servers i).unanswered = received s i) ∧
      (∀ x ∈ s.told, ∃ request, s.requests[x.request]? = some ⟨x.server, request⟩ ∧
        Fitting es x.server request x.answer) ∧ ∀ e ∈ es, Heard s e := by
  let _ : Crc32 := ieee
  obtain ⟨_, _, _, _, run, _⟩ := run_led_write (raftConditions_allowsPlain False False)
  obtain ⟨s, hrun, _⟩ := servers_of_cluster run
  exact ⟨_, s, hrun, List.mem_cons_of_mem _ (List.mem_singleton_self _),
    requests_answered_in_order hrun⟩

end RaftServerRequests
