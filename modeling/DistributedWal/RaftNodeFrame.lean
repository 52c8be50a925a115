import DistributedWal.RaftNode

/-! # What the log operations of a node leave alone

Storing entries, taking and installing snapshots touch neither the term and the vote nor
the role. The images they add to the trail carry the state file as it is.
-/
namespace RaftNodeFrame

open WalEntry ReplicatedLog RaftPersistentState RaftSnapshot RaftNode

structure Quiet (n n' : Node) : Prop where
  id : n'.id = n.id
  peers : n'.peers = n.peers
  ps : n'.ps = n.ps
  role : n'.role = n.role
  trail : ∃ images, n'.trail = n.trail ++ images ∧ ∀ img ∈ images, img.stateFile = n.ps.file

theorem Quiet.rfl {n : Node} : Quiet n n :=
  ⟨Eq.refl _, Eq.refl _, Eq.refl _, Eq.refl _, [], by simp, by simp⟩

theorem Quiet.trans {n₁ n₂ n₃ : Node} (h : Quiet n₁ n₂) (k : Quiet n₂ n₃) : Quiet n₁ n₃ := by
  obtain ⟨is, his, hfile⟩ := h.trail
  obtain ⟨js, hjs, hfile'⟩ := k.trail
  refine ⟨k.id.trans h.id, k.peers.trans h.peers, k.ps.trans h.ps, k.role.trans h.role,
    is ++ js, by rw [hjs, his, List.append_assoc], ?_⟩
  intro img himg
  rcases List.mem_append.mp himg with himg | himg
  · exact hfile img himg
  · rw [hfile' img himg, h.ps]

/-- One more image of the state as it is. -/
theorem Quiet.mark {n n' : Node} (h : Quiet n n') : Quiet n n'.mark := by
  refine h.trans ⟨Eq.refl _, Eq.refl _, Eq.refl _, Eq.refl _, [n'.image], Eq.refl _, ?_⟩
  intro img himg
  obtain rfl := List.mem_singleton.mp himg
  exact Eq.refl _

theorem saveSnapshot_quiet (n : Node) (s : Snapshot) : Quiet n (n.saveSnapshot s) :=
  Quiet.mark ⟨Eq.refl _, Eq.refl _, Eq.refl _, Eq.refl _, [], by simp, by simp⟩

/-- The term and the vote that a state file holds. -/
def stored (file : Option LittleEndianCodec.Bytes) : ℕ × Option NodeId :=
  ((PersistentState.open file).currentTerm, (PersistentState.open file).votedFor)

theorem stored_some (bytes : LittleEndianCodec.Bytes) : stored (some bytes) = decode bytes := rfl

/-- A property of terms and votes that holds now and in whatever a crash leaves. -/
structure Keeps (P : ℕ → Option NodeId → Prop) (n : Node) : Prop where
  now : P n.ps.currentTerm n.ps.votedFor
  file : P (stored n.ps.file).1 (stored n.ps.file).2
  images : ∀ img ∈ n.trail, P (stored img.stateFile).1 (stored img.stateFile).2

variable {P : ℕ → Option NodeId → Prop} {n n' : Node}

theorem Keeps.quiet (h : Keeps P n) (hq : Quiet n n') : Keeps P n' := by
  obtain ⟨images, himages, hfile⟩ := hq.trail
  refine ⟨hq.ps ▸ h.now, hq.ps ▸ h.file, fun img himg => ?_⟩
  rw [himages] at himg
  rcases List.mem_append.mp himg with himg | himg
  · exact h.images img himg
  · rw [hfile img himg]
    exact h.file

theorem Keeps.begin (h : P n.ps.currentTerm n.ps.votedFor)
    (hfile : P (stored n.ps.file).1 (stored n.ps.file).2) : Keeps P n.begin := by
  refine ⟨h, hfile, fun img himg => ?_⟩
  obtain rfl := List.mem_singleton.mp himg
  exact hfile

theorem Keeps.mark (h : Keeps P n) {ps : PersistentState} (hnow : P ps.currentTerm ps.votedFor)
    (hfile : P (stored ps.file).1 (stored ps.file).2) :
    Keeps P { n with ps := ps }.mark := by
  refine ⟨hnow, hfile, fun img himg => ?_⟩
  rcases List.mem_append.mp himg with himg | himg
  · exact h.images img himg
  · obtain rfl := List.mem_singleton.mp himg
    exact hfile

theorem Keeps.advanceTerm (h : Keeps P n) {t : ℕ} (ht : t < 2 ^ 64) (hP : P t none) :
    Keeps P (n.advanceTerm t) := by
  refine h.mark hP ?_
  rw [show (n.ps.advanceTerm t).file = some (encode t none) from rfl, stored_some,
    decode_encode ht (by simp)]
  exact hP

theorem Keeps.recordVote (h : Keeps P n) {c : NodeId}
    (hP : P n.ps.currentTerm (some c))
    (hfile : P (decode (encode n.ps.currentTerm (some c))).1
      (decode (encode n.ps.currentTerm (some c))).2) : Keeps P (n.recordVote c) := by
  refine h.mark hP ?_
  rw [show (n.ps.recordVote c).file = some (encode n.ps.currentTerm (some c)) from rfl,
    stored_some]
  exact hfile

/-- Changes of volatile fields. -/
theorem Keeps.volatile (h : Keeps P n) (hps : n'.ps = n.ps) (htrail : n'.trail = n.trail) :
    Keeps P n' := ⟨hps ▸ h.now, hps ▸ h.file, htrail ▸ h.images⟩

theorem Keeps.acceptLeader (h : Keeps P n) {t : ℕ} (leader : NodeId)
    (ht : t > n.ps.currentTerm → t < 2 ^ 64) (hP : t > n.ps.currentTerm → P t none) :
    Keeps P (n.acceptLeader t leader) := by
  rw [Node.acceptLeader]
  split
  · rename_i hgt
    exact (h.advanceTerm (ht hgt) (hP hgt)).volatile rfl rfl
  · exact h.volatile rfl rfl

theorem Keeps.stepDown (h : Keeps P n) {t : ℕ} (ht : t < 2 ^ 64) (hP : P t none) :
    Keeps P (n.stepDown t) := (h.advanceTerm ht hP).volatile rfl rfl

variable [Crc32]

theorem appendLog_quiet (n : Node) (term : ℕ) (data : LittleEndianCodec.Bytes) :
    Quiet n (n.appendLog term data).2 :=
  Quiet.mark ⟨Eq.refl _, Eq.refl _, Eq.refl _, Eq.refl _, [], by simp, by simp⟩

theorem truncateLog_quiet (n : Node) (i : ℕ) : Quiet n (n.truncateLog i) :=
  Quiet.mark ⟨Eq.refl _, Eq.refl _, Eq.refl _, Eq.refl _, [], by simp, by simp⟩

theorem journalTrail_stateFile {n : Node} {i t : ℕ} {v : LogView} {img : Image}
    (h : img ∈ n.journalTrail i t v) : img.stateFile = n.ps.file := by
  rw [Node.journalTrail] at h
  split at h
  · simp at h
  · obtain ⟨d, _, rfl⟩ := List.mem_map.mp h
    rfl

theorem compactLog_quiet (n : Node) (i t : ℕ) : Quiet n (n.compactLog i t).2 :=
  Quiet.mark ⟨Eq.refl _, Eq.refl _, Eq.refl _, Eq.refl _, _, Eq.refl _,
    fun _ h => journalTrail_stateFile h⟩

theorem installLog_quiet (n : Node) (i t : ℕ) : Quiet n (n.installLog i t).2 :=
  Quiet.mark ⟨Eq.refl _, Eq.refl _, Eq.refl _, Eq.refl _, _, Eq.refl _,
    fun _ h => journalTrail_stateFile h⟩

theorem storeEntry_quiet (n : Node) (e : LogEntry) : Quiet n (n.storeEntry e) := by
  rw [Node.storeEntry]
  split
  · split
    · exact Quiet.rfl
    · exact (truncateLog_quiet n _).trans (appendLog_quiet _ _ _)
  · exact appendLog_quiet _ _ _

theorem storeEntries_quiet (n : Node) (entries : List LogEntry) :
    Quiet n (n.storeEntries entries) := by
  induction entries generalizing n with
  | nil => exact Quiet.rfl
  | cons e es ih => exact (storeEntry_quiet n e).trans (ih _)

/-- A write appends to the log, or does nothing on a node that is no leader. -/
theorem startWrite_node (n : Node) (data : LittleEndianCodec.Bytes) :
    (n.startWrite data).2 = n ∨
      (n.startWrite data).2 = (n.appendLog n.ps.currentTerm data).2 := by
  rw [Node.startWrite]
  split
  · exact Or.inl rfl
  · right
    split
    · rename_i m hm
      exact (congrArg Prod.snd hm).symm
    · rename_i m hm
      exact (congrArg Prod.snd hm).symm

theorem startWrite_quiet (n : Node) (data : LittleEndianCodec.Bytes) :
    Quiet n (n.startWrite data).2 := by
  rcases startWrite_node n data with hn | hn
  · rw [hn]
    exact Quiet.rfl
  · rw [hn]
    exact appendLog_quiet n n.ps.currentTerm data

theorem takeSnapshot_quiet (n : Node) : Quiet n n.takeSnapshot.2 := by
  rw [Node.takeSnapshot]
  split
  · exact Quiet.rfl
  · dsimp only
    have h : ∀ s i t, Quiet n ((n.saveSnapshot s).compactLog i t).2 :=
      fun s i t => (saveSnapshot_quiet n s).trans (compactLog_quiet _ i t)
    split
    · rename_i m hc
      rw [← show _ = m from congrArg Prod.snd hc]
      exact h _ _ _
    · rename_i m hc
      have hm : Quiet n m := by
        rw [← show _ = m from congrArg Prod.snd hc]
        exact h _ _ _
      exact ⟨hm.id, hm.peers, hm.ps, hm.role, hm.trail⟩

theorem commitWrite_quiet (n : Node) (index acks : ℕ) :
    Quiet n (n.commitWrite index acks).2 := by
  rw [Node.commitWrite]
  split
  · exact Quiet.rfl
  · have h : Quiet n { n with
        commitIndex := index
        entriesSinceSnapshot := n.entriesSinceSnapshot + 1 } :=
      ⟨Eq.refl _, Eq.refl _, Eq.refl _, Eq.refl _, [], by simp, by simp⟩
    dsimp only
    split
    · exact h.trans (takeSnapshot_quiet _)
    · exact h

end RaftNodeFrame
