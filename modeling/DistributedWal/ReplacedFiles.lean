import DistributedWal.AtomicReplace
import DistributedWal.RaftPersistentState
import DistributedWal.RaftSnapshotCodec
import DistributedWal.WalSegment

/-! # The files that are replaced as a whole

The snapshot, the Raft state and the checkpoint are written to a temporary file that is
renamed into place. Only the snapshot is synced before the rename.
-/
namespace ReplacedFiles

open LittleEndianCodec LabelledRuns DurableLog AtomicReplace RaftPersistentState RaftSnapshot
  RaftSnapshotCodec WalSegment

section

variable {σ ω : Type*} {c : Cell σ ω UInt8} {fits : σ → ω → Prop} {p : Place UInt8}
  {es : List (Event ω)} {m : Machine σ UInt8}

/-- A file that is replaced without a sync: whole operations while only processes are
killed, and a cut of what they wrote after an outage. -/
theorem unsynced_run (hlaw : c.Lawful fits) (hp : p.Settled)
    (run : Steps (Step c fits false) (c.started p) es m) (hkills : ∀ e ∈ es, ¬ e.IsOutage) :
    ∃ l, Steps DurableLog.Step Log.empty (es.map Event.change) l ∧
      Tracks c (c.load p.contents) m l ∧
      ∀ p', m.place.Outage p' → ∃ kept contents n, kept <+: l.held ∧
        c.load contents = kept.foldl c.apply (c.load p.contents) ∧
        p'.contents = contents.map (List.take n) := by
  obtain ⟨l, hl, ht⟩ := run_tracks hlaw hp run (.inr hkills)
  refine ⟨l, hl, ht, fun p' hout => ?_⟩
  obtain ⟨kept, contents, n, hkept, hload, hcut⟩ := ht.frays hout
  exact ⟨l.firm ++ kept, contents, n, (List.prefix_append_right_inj _).mpr hkept, hload, hcut⟩

/-- Right after an operation that wrote, an outage may leave an empty file. -/
theorem unsynced_lost {o : ω} {m' : Machine σ UInt8}
    (hw : c.writes m.memory o ≠ none) (hstep : Step c fits false m (.applied o) m') :
    ∃ p', m'.place.Outage p' ∧ p'.contents = some [] := by
  cases hstep with
  | applied _ hcalls =>
    rcases hcalls.whole (p := m.place) with ⟨hnone, _⟩ | ⟨contents, _, hcs⟩
    · exact absurd hnone hw
    · refine ⟨⟨none, some ⟨[], 0⟩, []⟩, ⟨⟨_, List.mem_cons_self, ?_⟩, rfl⟩, rfl⟩
      rw [hcs]
      exact .some ⟨0, Nat.le_refl _, rfl⟩

end

def snapshotCell : Cell (Except SnapshotError (Option Snapshot)) Snapshot UInt8 where
  load := Snapshot.load
  apply _ s := .ok (some s)
  writes _ s := some s.fileBytes

/-- The widths of the fields in the file. -/
def FitsFile (s : Snapshot) : Prop :=
  s.lastIncludedIndex < 2 ^ 64 ∧ s.lastIncludedTerm < 2 ^ 64 ∧ s.data.length < 2 ^ 32

theorem snapshotCell_lawful : snapshotCell.Lawful (fun _ s => FitsFile s) where
  loads := by
    intro _ s contents ⟨hindex, hterm, hdata⟩ hw
    obtain rfl := Option.some.inj hw
    have hload : Snapshot.load (some s.fileBytes) = .ok (some s) :=
      (load_eq_iff hindex hterm).mpr hdata
    exact hload
  quiet _ hw := nomatch hw

theorem foldl_saved (saved : List Snapshot) :
    saved.foldl snapshotCell.apply (.ok none) = .ok saved.getLast? := by
  induction saved using List.reverseRecOn with
  | nil => rfl
  | append_singleton front s => simp [List.foldl_append, snapshotCell]

def noFile : Place UInt8 := ⟨none, none, []⟩

theorem noFile_settled : noFile.Settled := ⟨rfl, by simp [noFile]⟩

/-- Whatever kills and outages come, between any two system calls, what loads is the last
of the saves that took effect, whole. -/
theorem snapshot_file_whole {es : List (Event Snapshot)}
    {m : Machine (Except SnapshotError (Option Snapshot)) UInt8}
    (run : Steps (Step snapshotCell (fun _ s => FitsFile s) true)
      (snapshotCell.started noFile) es m) :
    ∃ l, Steps DurableLog.Step Log.empty (es.map Event.change) l ∧
      Snapshot.load m.place.contents = .ok l.held.getLast? := by
  obtain ⟨l, hl, ht⟩ := run_tracks snapshotCell_lawful noFile_settled run (.inl rfl)
  refine ⟨l, hl, ht.loads.trans (ht.memory.trans ?_)⟩
  exact foldl_saved l.held

/-- A save, and an outage that strikes the next one as it opens its temporary file. -/
theorem snapshot_file_whole_outage :
    ∃ l, Steps DurableLog.Step Log.empty
        [.push ⟨1, 1, [7]⟩ false, .outage [⟨2, 1, [8]⟩] (fun _ => False)] l ∧
      Snapshot.load (some (Snapshot.fileBytes ⟨1, 1, [7]⟩)) = .ok l.held.getLast? := by
  have hsaved : Step snapshotCell (fun _ s => FitsFile s) true (snapshotCell.started noFile)
      (.applied ⟨1, 1, [7]⟩)
      ⟨_, noFile.after true (Snapshot.fileBytes ⟨1, 1, [7]⟩)⟩ := .single (by simp [FitsFile]) rfl
  have hsecond : snapshotCell.Calls true (.ok (some ⟨1, 1, [7]⟩)) (some ⟨2, 1, [8]⟩) _ :=
    .single rfl
  have hout : ((noFile.after true (Snapshot.fileBytes ⟨1, 1, [7]⟩)).calls [Call.create]).Outage
      ⟨none, some ⟨Snapshot.fileBytes ⟨1, 1, [7]⟩, 21⟩, []⟩ :=
    ⟨⟨_, List.mem_cons_self, .some ⟨21, by decide, rfl⟩⟩, rfl⟩
  have hstruck : Step snapshotCell (fun _ s => FitsFile s) true
      ⟨.ok (some ⟨1, 1, [7]⟩), noFile.after true (Snapshot.fileBytes ⟨1, 1, [7]⟩)⟩
      (.outage (some ⟨2, 1, [8]⟩)) _ :=
    .outage (by simp [FitsFile]) hsecond (List.prefix_append [Call.create] _) hout
  exact snapshot_file_whole ((Steps.one hsaved).snoc hstruck)

/-- The operations that persist a `PersistentState`. -/
inductive StateOp where
  | advanceTerm (newTerm : ℕ)
  | recordVote (candidate : NodeId)

def StateOp.apply (ps : PersistentState) : StateOp → PersistentState
  | .advanceTerm newTerm => ps.advanceTerm newTerm
  | .recordVote candidate => ps.recordVote candidate

/-- A term is a `u64`, and the vote has an id that the file can hold. -/
def StateOp.Fits (ps : PersistentState) : StateOp → Prop
  | .advanceTerm newTerm => newTerm < 2 ^ 64
  | .recordVote candidate => ps.currentTerm < 2 ^ 64 ∧ Storable candidate

def stateCell : Cell PersistentState StateOp UInt8 where
  load := PersistentState.open
  apply := StateOp.apply
  writes ps o := (o.apply ps).file

theorem open_persist {ps : PersistentState} (ht : ps.currentTerm < 2 ^ 64)
    (hv : ∀ id, ps.votedFor = some id → Storable id) :
    PersistentState.open ps.persist.file = ps.persist := by
  simp only [PersistentState.open, PersistentState.persist, decode_encode ht hv]

theorem stateCell_lawful : stateCell.Lawful StateOp.Fits where
  loads := by
    intro ps o contents hfits hw
    have hfile : some contents = (o.apply ps).file := hw.symm
    have hopen : PersistentState.open (o.apply ps).file = o.apply ps := by
      cases o with
      | advanceTerm newTerm => exact open_persist hfits (by simp)
      | recordVote candidate =>
        refine open_persist hfits.1 (fun id hid => ?_)
        exact Option.some.inj hid ▸ hfits.2
    exact hfile ▸ hopen
  quiet := by
    intro ps o _ hw
    cases o <;> cases hw

theorem state_writes (ps : PersistentState) (o : StateOp) : stateCell.writes ps o ≠ none := by
  cases o <;> exact Option.some_ne_none _

/-- A cut state file has lost the vote, or everything. -/
theorem decode_take (bytes : Bytes) (n : ℕ) :
    decode (bytes.take n) = (0, none) ∨ decode (bytes.take n) = ((decode bytes).1, none) ∨
      decode (bytes.take n) = decode bytes := by
  by_cases hshort : (bytes.take n).length < 12
  · exact .inl (by rw [decode, if_pos hshort])
  · have hlen : (bytes.take n).length = min n bytes.length := List.length_take
    have hterm : (bytes.take n).take 8 = bytes.take 8 := by
      rw [List.take_take, Nat.min_eq_left (by omega)]
    have hcount : ((bytes.take n).drop 8).take 4 = (bytes.drop 8).take 4 := by
      rw [List.drop_take, List.take_take, Nat.min_eq_left (by omega)]
    have hfull : ¬ bytes.length < 12 := by omega
    refine .inr ?_
    simp only [decode, if_neg hshort, if_neg hfull, hterm, hcount]
    set len := leValue ((bytes.drop 8).take 4) with hl
    by_cases hcut : len = 0 ∨ (bytes.take n).length < 12 + len
    · exact .inl (by rw [if_pos hcut])
    · rw [not_or, Nat.not_lt] at hcut
      have hvote : ((bytes.take n).drop 12).take len = (bytes.drop 12).take len := by
        rw [List.drop_take, List.take_take, Nat.min_eq_left (by omega)]
      rw [if_neg (by omega), if_neg (by omega), hvote]
      exact .inr rfl

/-- What may be opened of a state that an outage cut. -/
def Frayed (s t : PersistentState) : Prop :=
  (t.currentTerm = 0 ∧ t.votedFor = none) ∨
    (t.currentTerm = s.currentTerm ∧ (t.votedFor = none ∨ t.votedFor = s.votedFor))

theorem open_take (contents : Option Bytes) (n : ℕ) :
    Frayed (PersistentState.open contents)
      (PersistentState.open (contents.map (List.take n))) := by
  cases contents with
  | none => exact .inl ⟨rfl, rfl⟩
  | some bytes =>
    rcases decode_take bytes n with h | h | h
    all_goals simp [Frayed, PersistentState.open, h]

/-- While only processes are killed, each operation takes effect as a whole or not at all,
and the next process opens just what the last one had in memory. An outage may bring back
the state of an earlier moment, without its vote, or no state at all; the last is possible
right after an operation. -/
theorem state_file_whole {p : Place UInt8} (hp : p.Settled) {es : List (Event StateOp)}
    {m : Machine PersistentState UInt8}
    (run : Steps (Step stateCell StateOp.Fits false) (stateCell.started p) es m)
    (hkills : ∀ e ∈ es, ¬ e.IsOutage) :
    ∃ l, Steps DurableLog.Step Log.empty (es.map Event.change) l ∧
      m.memory = l.held.foldl StateOp.apply (PersistentState.open p.contents) ∧
      PersistentState.open m.place.contents = m.memory ∧
      (∀ p', m.place.Outage p' → ∃ kept, kept <+: l.held ∧
        Frayed (kept.foldl StateOp.apply (PersistentState.open p.contents))
          (PersistentState.open p'.contents)) ∧
      ((∃ o, es.getLast? = some (.applied o)) → ∃ p', m.place.Outage p' ∧
        (PersistentState.open p'.contents).currentTerm = 0 ∧
        (PersistentState.open p'.contents).votedFor = none) := by
  obtain ⟨l, hl, ht, hcut⟩ := unsynced_run stateCell_lawful hp run hkills
  refine ⟨l, hl, ht.memory, ht.loads, fun p' hout => ?_, fun hlast => ?_⟩
  · obtain ⟨kept, contents, n, hkept, hload, hp'⟩ := hcut p' hout
    refine ⟨kept, hkept, ?_⟩
    have hfrays := open_take contents n
    rw [← hp'] at hfrays
    exact hload ▸ hfrays
  · obtain ⟨o, ho⟩ := hlast
    obtain ⟨front, rfl⟩ := List.getLast?_eq_some_iff.mp ho
    obtain ⟨m₀, _, hstep⟩ := run.snoc_inv
    obtain ⟨p', hout, hempty⟩ := unsynced_lost (state_writes _ _) hstep
    exact ⟨p', hout, by rw [hempty]; exact ⟨rfl, rfl⟩⟩

/-- A vote is opened again after a kill, and may be forgotten after an outage. -/
theorem state_file_whole_vote :
    ∃ m, Steps (Step stateCell StateOp.Fits false) (stateCell.started noFile)
        [.applied (.advanceTerm 1), .applied (.recordVote "a")] m ∧
      (PersistentState.open m.place.contents).votedFor = some "a" ∧
      ∃ p', m.place.Outage p' ∧ (PersistentState.open p'.contents).votedFor = none := by
  have hadvance : Step stateCell StateOp.Fits false (stateCell.started noFile)
      (.applied (.advanceTerm 1)) ⟨_, noFile.after false (encode 1 none)⟩ :=
    .single (by simp [StateOp.Fits]) rfl
  have hvote : Step stateCell StateOp.Fits false
      ⟨PersistentState.advanceTerm ⟨none, 0, none⟩ 1, noFile.after false (encode 1 none)⟩
      (.applied (.recordVote "a"))
      ⟨_, (noFile.after false (encode 1 none)).after false (encode 1 (some "a"))⟩ :=
    .single ⟨by decide, by decide⟩ rfl
  have run := (Steps.one hadvance).snoc hvote
  obtain ⟨l, _, _, hopen, _, hlost⟩ :=
    state_file_whole noFile_settled run (by simp [Event.IsOutage])
  obtain ⟨p', hout, _, hnone⟩ := hlost ⟨_, rfl⟩
  exact ⟨_, run, by rw [hopen]; rfl, p', hout, hnone⟩

/-- The checkpoint file under `Checkpoint::advance`. -/
def checkpointCell : Cell ℕ ℕ UInt8 where
  load file := openCheckpoint { Dir.empty with checkpoint := file }
  apply current sequence := (advanceCheckpoint current sequence Dir.empty).1
  writes current sequence := (advanceCheckpoint current sequence Dir.empty).2.checkpoint

theorem checkpoint_load (file : Option Bytes) :
    checkpointCell.load file = openCheckpoint { Dir.empty with checkpoint := file } := rfl

theorem checkpoint_apply (current sequence : ℕ) :
    checkpointCell.apply current sequence = max current sequence := by
  by_cases h : sequence > current
  · rw [max_eq_right (Nat.le_of_lt h)]
    simp [checkpointCell, advanceCheckpoint, h]
  · rw [max_eq_left (Nat.not_lt.mp h)]
    simp [checkpointCell, advanceCheckpoint, h]

theorem checkpoint_writes (current sequence : ℕ) :
    checkpointCell.writes current sequence =
      if sequence > current then some (leBytes 8 sequence) else none := by
  by_cases h : sequence > current <;>
    simp [checkpointCell, advanceCheckpoint, h, Dir.empty]

theorem checkpointCell_lawful : checkpointCell.Lawful (fun _ sequence => sequence < 2 ^ 64) where
  loads := by
    intro current sequence contents hfits hw
    rw [checkpoint_writes] at hw
    split at hw
    · rename_i h
      rw [← hw, checkpoint_apply, max_eq_right (Nat.le_of_lt h), checkpoint_load,
        openCheckpoint_leBytes (c := sequence) hfits rfl]
    · cases hw
  quiet := by
    intro current sequence _ hw
    rw [checkpoint_writes] at hw
    split at hw
    · cases hw
    · rename_i h
      rw [checkpoint_apply, max_eq_left (Nat.not_lt.mp h)]

/-- A cut checkpoint file counts as none. -/
theorem checkpoint_take (contents : Option Bytes) (n : ℕ) :
    checkpointCell.load (contents.map (List.take n)) = 0 ∨
      checkpointCell.load (contents.map (List.take n)) = checkpointCell.load contents := by
  cases contents with
  | none => exact .inr rfl
  | some bytes =>
    by_cases h : 8 ≤ (bytes.take n).length
    · have hlen : (bytes.take n).length = min n bytes.length := List.length_take
      have htake : (bytes.take n).take 8 = bytes.take 8 := by
        rw [List.take_take, Nat.min_eq_left (by omega)]
      have hfull : 8 ≤ bytes.length := by omega
      exact .inr (by simp only [checkpointCell, openCheckpoint, Option.map_some, if_pos h,
        if_pos hfull, htake])
    · exact .inl (by simp only [checkpointCell, openCheckpoint, Option.map_some, if_neg h])

theorem foldl_checkpoint (first : ℕ) (sequences : List ℕ) :
    sequences.foldl checkpointCell.apply first = sequences.foldl max first := by
  congr 1
  funext current sequence
  exact checkpoint_apply current sequence

theorem le_foldl_max {kept sequences : List ℕ} (h : kept <+: sequences) (first : ℕ) :
    kept.foldl max first ≤ sequences.foldl max first := by
  obtain ⟨more, rfl⟩ := h
  rw [List.foldl_append]
  generalize kept.foldl max first = reached
  induction more generalizing reached with
  | nil => exact le_rfl
  | cons sequence more ih => exact (le_max_left _ _).trans (ih _)

/-- While only processes are killed, the checkpoint is the highest that took effect, in
memory and in the file. An outage leaves 0 or the checkpoint of an earlier moment, so it
never moves the checkpoint up. -/
theorem checkpoint_file_whole {p : Place UInt8} (hp : p.Settled) {es : List (Event ℕ)}
    {m : Machine ℕ UInt8}
    (run : Steps (Step checkpointCell (fun _ sequence => sequence < 2 ^ 64) false)
      (checkpointCell.started p) es m)
    (hkills : ∀ e ∈ es, ¬ e.IsOutage) :
    ∃ l, Steps DurableLog.Step Log.empty (es.map Event.change) l ∧
      m.memory = l.held.foldl max (checkpointCell.load p.contents) ∧
      checkpointCell.load m.place.contents = m.memory ∧
      ∀ p', m.place.Outage p' → checkpointCell.load p'.contents ≤ m.memory ∧
        (checkpointCell.load p'.contents = 0 ∨ ∃ kept, kept <+: l.held ∧
          checkpointCell.load p'.contents =
            kept.foldl max (checkpointCell.load p.contents)) := by
  obtain ⟨l, hl, ht, hcut⟩ := unsynced_run checkpointCell_lawful hp run hkills
  have hmemory := ht.memory.trans (foldl_checkpoint _ _)
  refine ⟨l, hl, hmemory, ht.loads, fun p' hout => ?_⟩
  obtain ⟨kept, contents, n, hkept, hload, hp'⟩ := hcut p' hout
  rw [foldl_checkpoint] at hload
  rw [hp']
  rcases checkpoint_take contents n with h | h
  · rw [h]
    exact ⟨Nat.zero_le _, .inl rfl⟩
  · rw [h, hload, hmemory]
    exact ⟨le_foldl_max hkept _, .inr ⟨kept, hkept, rfl⟩⟩

/-- A lower checkpoint leaves the file alone. -/
theorem checkpoint_file_whole_lower :
    ∃ m, Steps (Step checkpointCell (fun _ sequence => sequence < 2 ^ 64) false)
        (checkpointCell.started noFile) [.applied 5, .applied 3] m ∧
      checkpointCell.load m.place.contents = 5 := by
  have hfirst : Step checkpointCell (fun _ sequence => sequence < 2 ^ 64) false
      (checkpointCell.started noFile) (.applied 5) ⟨5, noFile.after false (leBytes 8 5)⟩ :=
    .single (by decide) rfl
  have hsecond : Step checkpointCell (fun _ sequence => sequence < 2 ^ 64) false
      ⟨5, noFile.after false (leBytes 8 5)⟩ (.applied 3)
      ⟨5, noFile.after false (leBytes 8 5)⟩ := .applied (by decide) (.quiet rfl)
  have run := (Steps.one hfirst).snoc hsecond
  obtain ⟨l, _, _, hload, _⟩ := checkpoint_file_whole noFile_settled run (by simp [Event.IsOutage])
  exact ⟨_, run, hload⟩

end ReplacedFiles
