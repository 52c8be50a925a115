import DistributedWal.WalDiskContents
import DistributedWal.WalLifetime

/-! # Power loss at any moment in the life of a WAL

A run goes through operations, restarts, kills of the process and outages. A kill or an
outage may come between any two calls of an operation. The log opens again afterwards, or
the run ends there.
-/
namespace WalPowerLoss

open LittleEndianCodec SelfDelimiting WalEntry WalSegment WalEngine WalContents
open WalSegmentParsing WalDisk WalDiskContents LabelledRuns
open DurableLog (Log Change Midway)

structure Machine where
  wal : Wal
  synced : ℕ → Option ℕ

def Machine.disk (m : Machine) : Disk := ⟨m.wal.dir, m.synced⟩

/-- The machine after the calls that led to the log `w`. -/
def Machine.after (m : Machine) (cs : List Syscall) (w : Wal) : Machine :=
  ⟨w, (m.disk.calls cs).synced⟩

/-- The machine after an opening of what is on the disk. -/
def restarted (d : Disk) (w : Wal) : Machine := ⟨w, (d.calls (openCalls d.dir)).synced⟩

/-- `next` is the sequence that an interrupted append would have got. -/
inductive Event where
  | appended (sequence : ℕ) (data : Bytes)
  | rejected (data : Bytes)
  | checkpointed (sequence : ℕ)
  | truncated (beforeSequence : ℕ)
  | synced
  | reopened
  | killed (during : Option Operation) (next : ℕ)
  | outage (during : Option Operation) (next : ℕ)

def pendingIn (next : ℕ) : Option Operation → List Entry
  | some (.append data) => [⟨next, data⟩]
  | _ => []

def lostIn : Option Operation → Entry → Prop
  | some (.truncateBefore b), e => e.sequence < b
  | _, _ => False

/-- What an event is to the list of entries. -/
def Event.change (syncWrites : Bool) : Event → Change Entry
  | .appended sequence data => .push ⟨sequence, data⟩ syncWrites
  | .rejected _ => .stop [] (fun _ => False)
  | .checkpointed _ => .stop [] (fun _ => False)
  | .truncated b => .stop [] (lostIn (some (.truncateBefore b)))
  | .synced => .harden
  | .reopened => .stop [] (fun _ => False)
  | .killed during next => .stop (pendingIn next during) (lostIn during)
  | .outage during next => .outage (pendingIn next during) (lostIn during)

section

variable [Crc32]

def callsOf (w : Wal) : Option Operation → List Syscall
  | none => []
  | some op => op.calls w

/-- An append starts while the sequence counter, a `u64`, can still be advanced. -/
def Permitted (w : Wal) : Option Operation → Prop
  | some (.append _) => w.nextSequence + 1 < 2 ^ 64
  | _ => True

inductive Step : Machine → Event → Machine → Prop where
  | append {m : Machine} {w' : Wal} {data : Bytes} {sequence : ℕ} :
      m.wal.nextSequence + 1 < 2 ^ 64 → m.wal.append data = (.ok sequence, w') →
      Step m (.appended sequence data) (m.after (appendCalls m.wal data) w')
  | reject {m : Machine} {w' : Wal} {data : Bytes} {err : WalError} :
      m.wal.append data = (.error err, w') →
      Step m (.rejected data) (m.after (appendCalls m.wal data) w')
  | checkpoint {m : Machine} (sequence : ℕ) : sequence < 2 ^ 64 →
      Step m (.checkpointed sequence)
        (m.after (checkpointCalls m.wal sequence) (m.wal.checkpoint sequence))
  | truncate {m : Machine} {w' : Wal} {b : ℕ} {result : Except WalError Unit} :
      m.wal.truncateBefore b = (result, w') →
      Step m (.truncated b) (m.after (truncateCalls b m.wal.sealed m.wal.dir) w')
  | sync {m : Machine} :
      Step m .synced (m.after (syncCalls m.wal.active) m.wal.sync)
  | reopen {m : Machine} {w' : Wal} : Wal.open m.wal.config m.wal.dir = .ok w' →
      Step m .reopened (restarted m.disk w')
  | kill {m : Machine} {w' : Wal} {during : Option Operation} {done : List Syscall} :
      Permitted m.wal during → done <+: callsOf m.wal during →
      Wal.open m.wal.config (m.disk.calls done).dir = .ok w' →
      Step m (.killed during m.wal.nextSequence) (restarted (m.disk.calls done) w')
  | outage {m : Machine} {w' : Wal} {during : Option Operation} {done : List Syscall}
      {d : Dir} : Permitted m.wal during → done <+: callsOf m.wal during →
      Outage (m.disk.calls done) d → Wal.open m.wal.config d = .ok w' →
      Step m (.outage during m.wal.nextSequence) (restarted (settled d) w')

/-- The life of a directory that was empty at first. -/
def Run (config : WalConfig) (es : List Event) (m : Machine) : Prop :=
  ∃ w₀, Wal.open config Dir.empty = .ok w₀ ∧
    Steps Step (restarted ⟨Dir.empty, fun _ => none⟩ w₀) es m

/-- The log stores the contents and the disk holds them. -/
structure Tracks (m : Machine) (c : Contents) (l : Log Entry) : Prop where
  stores : Stores m.wal c
  holds : Holds m.disk m.wal.active.id c l

end

theorem append_prefix {α : Type*} {done xs ys : List α} (h : done <+: xs ++ ys) :
    done <+: xs ∨ ∃ zs, done = xs ++ zs ∧ zs <+: ys := by
  rcases le_total done.length xs.length with hlen | hlen
  · exact Or.inl (List.prefix_of_prefix_length_le h (List.prefix_append xs ys) hlen)
  · obtain ⟨zs, rfl⟩ := List.prefix_of_prefix_length_le (List.prefix_append xs ys) h hlen
    exact Or.inr ⟨zs, rfl, (List.prefix_append_right_inj xs).mp h⟩

section

variable [Crc32] {d : Disk} {id : ℕ} {c : Contents} {l : Log Entry}

/-- The calls of a rotation, when nothing is buffered. -/
theorem rotate_walk (h : Holds d id c l) {done : List Syscall}
    (hdone : done <+: [.write id [], .fsync id, .create (id + 1)]) :
    ∃ id' c' l', Holds (d.calls done) id' c' l' ∧ l'.held = l.held ∧ l.firm <+: l'.firm := by
  obtain ⟨hsync, hmark⟩ := h.fsync
  have hfirm : l.firm <+: l.held := List.prefix_append _ _
  simp only [List.prefix_cons_iff, List.prefix_nil] at hdone
  rcases hdone with rfl | ⟨t, rfl, rfl | ⟨t, rfl, rfl | ⟨t, rfl, rfl⟩⟩⟩
  · exact ⟨id, c, l, h, rfl, List.prefix_rfl⟩
  · exact ⟨id, c, l, by simpa [call_write_nil] using h, rfl, List.prefix_rfl⟩
  · exact ⟨id, c, _, by simpa [call_write_nil] using hsync, by simp [Log.held], hfirm⟩
  · exact ⟨id + 1, _, _, by simpa [call_write_nil] using hsync.create rfl hmark,
      by simp [Log.held], hfirm⟩

theorem rotate_holds (h : Holds d id c l) :
    Holds (d.calls [.write id [], .fsync id, .create (id + 1)]) (id + 1) (c.rotated id)
      ⟨l.held, []⟩ := by
  obtain ⟨hsync, hmark⟩ := h.fsync
  simpa [call_write_nil] using hsync.create rfl hmark

/-- The calls that add a record to a segment with room for it. -/
def recordCalls (sync : Bool) (id : ℕ) (encoded : Bytes) : List Syscall :=
  .write id encoded :: if sync then [.fsync id] else []

theorem record_walk (h : Holds d id c l) {next : ℕ} (hnext : Numbered next c.entries)
    {data : Bytes} (hfits : (Entry.mk next data).Fits) {sync : Bool} {done : List Syscall}
    (hdone : done <+: recordCalls sync id (encode next data)) :
    ∃ c' l' kept, Holds (d.calls done) id c' l' ∧ kept <+: [⟨next, data⟩] ∧
      l'.held = l.held ++ kept ∧ l.firm <+: l'.firm := by
  have hwrite := h.write hnext hfits
  rw [recordCalls, List.prefix_cons_iff] at hdone
  rcases hdone with rfl | ⟨t, rfl, ht⟩
  · exact ⟨c, l, [], h, List.nil_prefix, by simp, List.prefix_rfl⟩
  · have hheld : Log.held ⟨l.firm, l.loose ++ [⟨next, data⟩]⟩ =
        l.held ++ [(⟨next, data⟩ : Entry)] := by simp [Log.held]
    cases sync with
    | false =>
      obtain rfl : t = [] := by simpa using ht
      exact ⟨_, _, _, hwrite, List.prefix_rfl, hheld, List.prefix_rfl⟩
    | true =>
      simp only [if_true, List.prefix_cons_iff, List.prefix_nil] at ht
      rcases ht with rfl | ⟨t, rfl, rfl⟩
      · exact ⟨_, _, _, hwrite, List.prefix_rfl, hheld, List.prefix_rfl⟩
      · refine ⟨_, _, _, hwrite.fsync.1, List.prefix_rfl, ?_, ?_⟩
        · simp [Log.held]
        · exact ⟨l.loose ++ [⟨next, data⟩], by simp [Log.held]⟩

theorem record_holds (h : Holds d id c l) {next : ℕ} (hnext : Numbered next c.entries)
    {data : Bytes} (hfits : (Entry.mk next data).Fits) (sync : Bool) :
    ∃ l', Holds (d.calls (recordCalls sync id (encode next data))) id
        (c.appended ⟨next, data⟩) l' ∧
      l'.held = l.held ++ [⟨next, data⟩] ∧ l.firm <+: l'.firm ∧
      (sync = true → l'.loose = []) := by
  have hwrite := h.write hnext hfits
  cases sync with
  | false => exact ⟨_, hwrite, by simp [Log.held], List.prefix_rfl, by simp⟩
  | true =>
    refine ⟨_, hwrite.fsync.1, by simp [Log.held], ?_, fun _ => rfl⟩
    exact ⟨l.loose ++ [⟨next, data⟩], by simp [Log.held]⟩

end

section

variable [Crc32] {w : Wal} {c : Contents} {l : Log Entry} {d : Disk}

omit [Crc32] in
theorem rotate_created {w₁ : Wal} (h : w.rotate = (.ok (), w₁)) :
    rotateCalls w = syncCalls w.active ++ [.create (w.active.id + 1)] ∧
      w₁.active.id = w.active.id + 1 := by
  simp only [Wal.rotate, Segment.create] at h
  split at h
  · cases h
  · rename_i hcreate
    split at hcreate
    · cases hcreate
    · rename_i hnew
      cases hcreate
      cases h
      have hnew' : w.active.id + 1 ∉ (w.active.sync w.dir).2.ids := hnew
      exact ⟨by rw [rotateCalls, createCalls, if_neg hnew'], rfl⟩

omit [Crc32] in
theorem appendEncodedCalls_eq (hflushed : w.active.writer = []) (encoded : Bytes) :
    appendEncodedCalls w encoded =
      if w.active.size + encoded.length ≤ w.active.maxBytes then
        recordCalls w.config.syncWrites w.active.id encoded else [] := by
  rw [appendEncodedCalls, Segment.append]
  by_cases hroom : w.active.size + encoded.length ≤ w.active.maxBytes
  · have hfull : ¬ w.active.size + encoded.length > w.active.maxBytes := not_lt.mpr hroom
    simp only [if_pos hroom, if_neg hfull, hflushed, List.nil_append, recordCalls]
    cases w.config.syncWrites <;> rfl
  · have hfull : w.active.size + encoded.length > w.active.maxBytes := not_le.mp hroom
    simp only [if_neg hroom, if_pos hfull]

/-- The calls of an append: a rotation when the active segment has no room, then the
record when an empty segment has. -/
theorem appendCalls_eq (h : Layout w c) (data : Bytes) :
    appendCalls w data =
      if w.active.wouldOverflow (headerSize + data.length) then
        [.write w.active.id [], .fsync w.active.id, .create (w.active.id + 1)] ++
          if headerSize + data.length ≤ w.config.maxSegmentBytes then
            recordCalls w.config.syncWrites (w.active.id + 1) (encode w.nextSequence data)
          else []
      else recordCalls w.config.syncWrites w.active.id (encode w.nextSequence data) := by
  simp only [appendCalls, encode_length]
  split
  · obtain ⟨w₁, hrot, hlay, hmarks, hnext, hsize⟩ := rotate_layout h
    obtain ⟨hcalls, hid⟩ := rotate_created hrot
    simp only [hrot, hcalls, appendEncodedCalls_eq hlay.flushed, encode_length, hsize,
      hlay.cap, hmarks.config, hid, Nat.zero_add, syncCalls, flushCalls, h.flushed]
    rfl
  · rename_i hover
    have hroom : w.active.size + (headerSize + data.length) ≤ w.active.maxBytes := by
      simpa [Segment.wouldOverflow] using hover
    rw [appendEncodedCalls_eq h.flushed, encode_length, if_pos hroom]

theorem append_walk (hst : Stores w c) (h : Holds d w.active.id c l) {data : Bytes}
    (hmax : w.config.maxSegmentBytes ≤ 2 ^ 32) (hroom : w.nextSequence + 1 < 2 ^ 64)
    {done : List Syscall} (hdone : done <+: appendCalls w data) :
    ∃ id' c' l', Holds (d.calls done) id' c' l' ∧
      Midway [⟨w.nextSequence, data⟩] (fun _ => False) l l' := by
  have hfits : headerSize + data.length ≤ w.config.maxSegmentBytes →
      (Entry.mk w.nextSequence data).Fits := by
    intro hfit
    have : headerSize = 16 := rfl
    exact ⟨by simp only; omega, by simp only; omega⟩
  rw [appendCalls_eq hst.toLayout] at hdone
  split at hdone
  · rcases append_prefix hdone with hrot | ⟨rest, rfl, hrest⟩
    · obtain ⟨id', c', l', hholds, hheld, hfirm⟩ := rotate_walk h hrot
      exact ⟨id', c', l', hholds, .firmer hheld hfirm⟩
    · have hrotated := rotate_holds h
      rw [calls_append]
      split at hrest
      · rename_i hfit
        have hnum : Numbered w.nextSequence (c.rotated w.active.id).entries := by
          simpa using hst.numbered
        obtain ⟨c', l', kept, hholds, hkept, hheld, hfirm⟩ :=
          record_walk hrotated hnum (hfits hfit) hrest
        refine ⟨_, c', l', hholds, .added hkept ?_ ?_⟩
        · simpa [Log.held] using hheld
        · exact (List.prefix_append l.firm l.loose).trans hfirm
      · obtain rfl := List.prefix_nil.mp hrest
        exact ⟨_, _, _, hrotated, .firmer (by simp [Log.held]) (List.prefix_append _ _)⟩
  · rename_i hover
    have hfit : headerSize + data.length ≤ w.config.maxSegmentBytes := by
      have := hst.cap
      simp only [Segment.wouldOverflow, decide_eq_true_eq] at hover
      omega
    obtain ⟨c', l', kept, hholds, hkept, hheld, hfirm⟩ :=
      record_walk h hst.numbered (hfits hfit) hdone
    exact ⟨_, c', l', hholds, .added hkept hheld hfirm⟩

/-- After all the calls of an append that fits, its record is on the disk. -/
theorem append_holds (hst : Stores w c) (h : Holds d w.active.id c l) {data : Bytes}
    (hfits : (Entry.mk w.nextSequence data).Fits)
    (hfit : headerSize + data.length ≤ w.config.maxSegmentBytes) :
    ∃ id' l', Holds (d.calls (appendCalls w data)) id' (c.grown w data) l' ∧
      l'.held = l.held ++ [⟨w.nextSequence, data⟩] ∧ l.firm <+: l'.firm ∧
      (w.config.syncWrites = true → l'.loose = []) := by
  rw [appendCalls_eq hst.toLayout, Contents.grown]
  split
  · have hnum : Numbered w.nextSequence (c.rotated w.active.id).entries := by
      simpa using hst.numbered
    obtain ⟨l', hholds, hheld, hfirm, hsync⟩ :=
      record_holds (rotate_holds h) hnum hfits w.config.syncWrites
    rw [calls_append]
    refine ⟨_, l', hholds, ?_, ?_, hsync⟩
    · simpa [Log.held] using hheld
    · exact (List.prefix_append l.firm l.loose).trans hfirm
  · obtain ⟨l', hholds, hrest⟩ := record_holds h hst.numbered hfits w.config.syncWrites
    exact ⟨_, l', hholds, hrest⟩

/-- A refused append has rotated. -/
theorem append_refused (hst : Stores w c) (h : Holds d w.active.id c l) {data : Bytes}
    (hfit : ¬ headerSize + data.length ≤ w.config.maxSegmentBytes) :
    ∃ id', Holds (d.calls (appendCalls w data)) id' (c.rotated w.active.id)
      ⟨l.held, []⟩ := by
  have hover : w.active.wouldOverflow (headerSize + data.length) = true := by
    simp only [Segment.wouldOverflow, hst.cap, decide_eq_true_eq]
    omega
  rw [appendCalls_eq hst.toLayout, if_pos hover, if_neg hfit, List.append_nil]
  exact ⟨_, rotate_holds h⟩

end

section

variable [Crc32] {d : Disk} {id : ℕ} {l : Log Entry} {b : ℕ}

/-- Only records below the bound are removed, and those come first. -/
theorem truncate_first {front ps : List (ℕ × List Entry)} {p : ℕ × List Entry}
    {active : List Entry} (h : Holds d id ⟨front ++ p :: ps, active⟩ l)
    (hfront : ∀ q ∈ front, b ≤ maxSequence q.2) (hp : maxSequence p.2 < b) :
    p.2 = [] ∨ (front.map Prod.snd).flatten = [] := by
  by_cases hne : p.2 = []
  · exact Or.inl hne
  · refine Or.inr (List.flatten_eq_nil_iff.mpr fun es hes => ?_)
    obtain ⟨q, hq, rfl⟩ := List.mem_map.mp hes
    by_contra hq2
    obtain ⟨hpos, hbelow⟩ := (maxSequence_lt_iff p.2 b).mp hp
    obtain ⟨e, he⟩ := List.exists_mem_of_ne_nil _ hne
    obtain ⟨next, hnext⟩ := h.numbered
    -- an entry of the kept segment comes before the entries of this one
    have hbefore : ∀ g ∈ q.2, g.sequence < e.sequence := by
      intro g hg
      have hasc := hnext.ascending
      simp only [Contents.entries, List.map_append, List.map_cons, List.flatten_append,
        List.flatten_cons, List.append_assoc] at hasc
      refine (List.pairwise_append.mp hasc).2.2 g.sequence ?_ e.sequence ?_
      · exact List.mem_map_of_mem (List.mem_flatten.mpr ⟨q.2, List.mem_map_of_mem hq, hg⟩)
      · exact List.mem_append_left _ (List.mem_map_of_mem he)
    refine absurd ((maxSequence_lt_iff q.2 b).mpr ⟨hpos, fun g hg => ?_⟩)
      (not_lt.mpr (hfront q hq))
    exact (hbefore g hg).trans (hbelow e he)

theorem truncate_walk {front ps : List (ℕ × List Entry)} {active : List Entry}
    (h : Holds d id ⟨front ++ ps, active⟩ l) (hfront : ∀ q ∈ front, b ≤ maxSequence q.2)
    {done : List Syscall} (hdone : done <+: truncateCalls b (ps.map Prod.fst) d.dir) :
    ∃ back l' gone, Holds (d.calls done) id ⟨front ++ back, active⟩ l' ∧
      l.firm = gone ++ l'.firm ∧ (∀ e ∈ gone, e.sequence < b) ∧ l'.loose = l.loose ∧
      (done = truncateCalls b (ps.map Prod.fst) d.dir → back = kept b ps) := by
  induction ps generalizing front d l done with
  | nil =>
    obtain rfl := List.prefix_nil.mp hdone
    exact ⟨[], l, [], h, rfl, by simp, rfl, fun _ => rfl⟩
  | cons p ps ih =>
    have hread : readEntries d.dir p.1 = .ok p.2 := by
      refine readEntries_encodeAll (h.mem_files.mpr (Or.inl ⟨p, by simp, rfl⟩))
        (h.sealed_bytes p (by simp)) (fun e he => h.fits e ?_)
      exact List.mem_append_left _ (List.mem_flatten.mpr
        ⟨p.2, List.mem_map_of_mem (by simp), he⟩)
    simp only [List.map_cons, truncateCalls, hread] at hdone ⊢
    by_cases hp : maxSequence p.2 < b
    · rw [if_pos hp] at hdone ⊢
      rw [kept_cons, if_neg (not_le.mpr hp)]
      rcases List.prefix_cons_iff.mp hdone with rfl | ⟨t, rfl, ht⟩
      · exact ⟨p :: ps, l, [], h, rfl, by simp, rfl, fun hnil => absurd hnil.symm (by simp)⟩
      · obtain ⟨l₁, hholds, hfirm, hloose⟩ := h.unlink (truncate_first h hfront hp)
        obtain ⟨back, l', gone, hback, hgone, hbelow, hloose', hall⟩ :=
          ih hholds hfront ht
        refine ⟨back, l', p.2 ++ gone, hback, ?_, ?_, hloose'.trans hloose, ?_⟩
        · rw [hfirm, hgone, List.append_assoc]
        · intro e he
          rcases List.mem_append.mp he with he | he
          · exact ((maxSequence_lt_iff p.2 b).mp hp).2 e he
          · exact hbelow e he
        · exact fun hdone => hall (List.cons.inj hdone).2
    · rw [if_neg hp] at hdone ⊢
      rw [kept_cons, if_pos (not_lt.mp hp)]
      have h' : Holds d id ⟨(front ++ [p]) ++ ps, active⟩ l := by simpa using h
      have hfront' : ∀ q ∈ front ++ [p], b ≤ maxSequence q.2 := by
        intro q hq
        rcases List.mem_append.mp hq with hq | hq
        · exact hfront q hq
        · exact List.mem_singleton.mp hq ▸ not_lt.mp hp
      obtain ⟨back, l', gone, hback, hgone, hbelow, hloose, hall⟩ := ih h' hfront' hdone
      refine ⟨p :: back, l', gone, by simpa using hback, hgone, hbelow, hloose, ?_⟩
      exact fun hdone => by rw [hall hdone]

variable {w : Wal} {c : Contents}

/-- Wherever an operation is cut short, the disk holds what it held, less what is being
truncated, and perhaps the record being appended. -/
theorem operation_walk (hst : Stores w c) (h : Holds d w.active.id c l) (hd : d.dir = w.dir)
    (hmax : w.config.maxSegmentBytes ≤ 2 ^ 32) {during : Option Operation}
    (hperm : Permitted w during) {done : List Syscall} (hdone : done <+: callsOf w during) :
    ∃ id' c' l', Holds (d.calls done) id' c' l' ∧
      Midway (pendingIn w.nextSequence during) (lostIn during) l l' := by
  cases during with
  | none =>
    obtain rfl := List.prefix_nil.mp hdone
    exact ⟨_, c, l, h, .firmer rfl List.prefix_rfl⟩
  | some op =>
    cases op with
    | append data => exact append_walk hst h hmax hperm hdone
    | checkpoint sequence =>
      simp only [callsOf, Operation.calls, checkpointCalls] at hdone
      split at hdone
      · rcases List.prefix_cons_iff.mp hdone with rfl | ⟨t, rfl, ht⟩
        · exact ⟨_, c, l, h, .firmer rfl List.prefix_rfl⟩
        · obtain rfl := List.prefix_nil.mp ht
          exact ⟨_, c, l, h.replaceCheckpoint _, .firmer rfl List.prefix_rfl⟩
      · obtain rfl := List.prefix_nil.mp hdone
        exact ⟨_, c, l, h, .firmer rfl List.prefix_rfl⟩
    | truncateBefore b =>
      simp only [callsOf, Operation.calls, ← hd, hst.sealed_ids] at hdone
      have h' : Holds d w.active.id ⟨[] ++ c.sealed, c.active⟩ l := h
      obtain ⟨back, l', gone, hholds, hfirm, hgone, hloose, _⟩ :=
        truncate_walk h' (by simp) hdone
      exact ⟨_, _, l', hholds, .forgot hfirm hgone hloose⟩
    | sync =>
      have hsync : done <+: [.write w.active.id [], .fsync w.active.id,
          .create (w.active.id + 1)] := by
        simp only [callsOf, Operation.calls, syncCalls, flushCalls, hst.flushed] at hdone
        exact hdone.trans ⟨[.create (w.active.id + 1)], rfl⟩
      obtain ⟨id', c', l', hholds, hheld, hfirm⟩ := rotate_walk h hsync
      exact ⟨id', c', l', hholds, .firmer hheld hfirm⟩

end

section

variable [Crc32] {d : Disk} {d' : Dir} {id : ℕ} {c : Contents} {l : Log Entry}
variable {config : WalConfig} {w : Wal}

theorem tracks_of (hst : Stores w c) (hdir : d.dir = w.dir) (h : Holds d id c l) :
    Tracks ⟨w, d.synced⟩ c l := by
  have hid : id = w.active.id := by
    have hmem : id ∈ w.dir.ids := hdir ▸ h.mem_files.mpr (Or.inr rfl)
    rcases hst.mem_files.mp hmem with ⟨p, hp, rfl⟩ | hid
    · exact absurd (h.sealed_lt hp) (lt_irrefl _)
    · exact hid
  obtain ⟨dir, synced⟩ := d
  obtain rfl := hdir
  exact ⟨hst, hid ▸ h⟩

theorem restart_tracks (h : Holds d id c l) (hopen : Wal.open config d.dir = .ok w) :
    w.config = config ∧ Tracks (restarted d w) c l := by
  obtain ⟨v, hv, hst, hcfg, hdir, _, hcalls⟩ := h.opens config
  rw [hv] at hopen
  cases hopen
  refine ⟨hcfg, ?_⟩
  rw [restarted, hcalls]
  exact tracks_of hst hdir.symm h

/-- Without a segment file a new log is made. -/
theorem open_none (config : WalConfig) (hids : d.dir.ids = ∅) :
    ∃ w, Wal.open config d.dir = .ok w ∧ w.config = config ∧
      Tracks (restarted d w) ⟨[], []⟩ Log.empty := by
  have hlist : listSegments d.dir = [] := by simp [listSegments, hids]
  have hnew : 1 ∉ d.dir.ids := by simp [hids]
  rw [Wal.open, hlist]
  simp only [List.getLast?_nil, Segment.create, if_neg hnew]
  have hholds : Holds (d.call (.create 1)) 1 ⟨[], []⟩ Log.empty := by
    refine ⟨?_, ?_, ?_, ?_, ?_, ⟨1, .nil Nat.one_pos⟩, ?_, [], rfl, rfl, ?_⟩
    all_goals simp [Contents.ids, Contents.entries, Disk.call, hids]
  refine ⟨_, rfl, rfl, ?_⟩
  rw [restarted, openCalls, hlist]
  simp only [List.getLast?_nil, createCalls, if_neg hnew]
  refine tracks_of ⟨⟨rfl, ?_, ?_, ?_, ?_, rfl, rfl, rfl, .nil Nat.one_pos⟩, ?_⟩ rfl hholds
  all_goals simp [Contents.ids, Contents.entries, hids]

theorem open_reads (hopen : Wal.open config d' = .ok w)
    (hlast : (listSegments d').getLast? = some id) : ∃ es, readRaw (d'.bytes id) = .ok es := by
  rw [Wal.open, hlast] at hopen
  by_cases hid : id ∈ d'.ids
  · simp only [Segment.openForAppend, if_pos hid, highestSequenceOnDisk, readEntries] at hopen
    cases hread : readRaw (d'.bytes id) with
    | error err =>
      rw [hread] at hopen
      cases hopen
    | ok es => exact ⟨es, rfl⟩
  · simp only [Segment.openForAppend, if_neg hid] at hopen
    cases hopen

/-- The last segment file ends where a record ends. -/
def WholeRecords (d : Dir) : Prop :=
  ∀ id, (listSegments d).getLast? = some id →
    ∃ es : List Entry, (∀ e ∈ es, e.Fits) ∧ d.bytes id = encodeAll es

/-- What an outage leaves opens when the last file ends with a whole record, with the firm
entries and some more. -/
theorem survives_outage (config : WalConfig) (h : Holds d id c l) (hout : Outage d d')
    (hwhole : WholeRecords d') :
    ∃ w c' kept, Wal.open config d' = .ok w ∧ w.config = config ∧ kept <+: l.loose ∧
      Tracks (restarted (settled d') w) c' ⟨l.firm ++ kept, []⟩ := by
  by_cases hid : id ∈ d'.ids
  · obtain ⟨es, rest, kept, hlast, hbytes, hfits, hrest, hkept, hholds⟩ :=
      h.after_cut hout hid
    have hnil : rest = [] := by
      by_contra hne
      obtain ⟨_, e, he, hcut⟩ := hrest hne
      obtain ⟨fs, hfs, hraw⟩ := hwhole id hlast
      have hread := readRaw_encodeAll hfs
      rw [← hraw, hbytes] at hread
      exact readRaw_cut hfits he hcut hne fs hread
    obtain ⟨w, hopen, _⟩ := (hholds hnil).opens config
    obtain ⟨hcfg, htracks⟩ := restart_tracks (hholds hnil) hopen
    exact ⟨w, _, kept, hopen, hcfg, hkept, htracks⟩
  · rcases h.after_loss hout hid with ⟨hnone, hfirm⟩ | ⟨p, ps, _, hholds⟩
    · obtain ⟨w, hopen, hcfg, htracks⟩ := open_none (d := settled d') config hnone
      exact ⟨w, _, [], hopen, hcfg, List.nil_prefix, by rwa [hfirm]⟩
    · obtain ⟨w, hopen, _⟩ := hholds.opens config
      obtain ⟨hcfg, htracks⟩ := restart_tracks hholds hopen
      exact ⟨w, _, [], hopen, hcfg, List.nil_prefix, by simpa using htracks⟩

theorem whole_of_open (hopen : Wal.open config d' = .ok w) : WholeRecords d' := by
  intro id hlast
  obtain ⟨es, hes⟩ := open_reads hopen hlast
  obtain ⟨hraw, hfits⟩ := (readRaw_ok_iff _ _).mp hes
  exact ⟨es, hfits, hraw⟩

/-- With nothing loose an outage tears no record. -/
theorem whole_of_tight (h : Holds d id c l) (hout : Outage d d') (hloose : l.loose = []) :
    WholeRecords d' := by
  intro last hlast
  by_cases hid : id ∈ d'.ids
  · obtain ⟨es, rest, _, hlist, hbytes, hfits, hrest, _⟩ := h.after_cut hout hid
    obtain rfl := Option.some.inj (hlist.symm.trans hlast)
    have hnil : rest = [] := by
      by_contra hne
      exact (hrest hne).1 hloose
    exact ⟨es, hfits, by rw [hbytes, hnil, List.append_nil]⟩
  · rcases h.after_loss hout hid with ⟨hnone, _⟩ | ⟨p, ps, _, hholds⟩
    · simp [listSegments, hnone] at hlast
    · have hlist : listSegments d' = Contents.ids ⟨ps, p.2⟩ p.1 :=
        listSegments_eq hholds.ascending hholds.files
      obtain rfl : p.1 = last := by simpa [hlist, Contents.ids] using hlast
      exact ⟨p.2, fun e he => hholds.fits e (List.mem_append_right _ he), hholds.active_bytes⟩

end

section

variable [Crc32] {c : Contents} {l : Log Entry} {config : WalConfig}

/-- What the events are to the list of entries. -/
def changes (config : WalConfig) (es : List Event) : List (Change Entry) :=
  es.map (Event.change config.syncWrites)

theorem Tracks.append_step {m : Machine} (h : Tracks m c l)
    (hmax : m.wal.config.maxSegmentBytes ≤ 2 ^ 32) (hseq : m.wal.nextSequence + 1 < 2 ^ 64)
    {w' : Wal} {data : Bytes} {sequence : ℕ} (happ : m.wal.append data = (.ok sequence, w')) :
    w'.config = m.wal.config ∧ ∃ c' l', Tracks (m.after (appendCalls m.wal data) w') c' l' ∧
      DurableLog.Step l (.push ⟨sequence, data⟩ m.wal.config.syncWrites) l' := by
  have hfit := WalLifetime.append_ok_fits h.stores happ
  have hdata : data.length < 2 ^ 32 := by
    have : headerSize = 16 := rfl
    omega
  have hdir : (m.disk.calls (appendCalls m.wal data)).dir = w'.dir := by
    have := operation_calls_dir (d := m.disk) rfl (.append data)
    rwa [Operation.calls, Operation.run, happ] at this
  obtain ⟨v, hv, hst, hm, _⟩ := append_accepted h.stores data hdata (by omega) hfit
  rw [happ] at hv
  cases hv
  obtain ⟨id', l', hholds, hheld, hfirm, hsync⟩ :=
    append_holds h.stores h.holds ⟨Nat.lt_of_succ_lt hseq, hdata⟩ hfit
  exact ⟨hm.config, _, l', tracks_of hst hdir hholds, .push hheld hfirm hsync⟩

theorem Tracks.reject_step {m : Machine} (h : Tracks m c l) {w' : Wal} {data : Bytes}
    {err : WalError} (happ : m.wal.append data = (.error err, w')) :
    w'.config = m.wal.config ∧ ∃ c' l', Tracks (m.after (appendCalls m.wal data) w') c' l' ∧
      DurableLog.Step l (.stop [] (fun _ => False)) l' := by
  have hfit : ¬ headerSize + data.length ≤ m.wal.config.maxSegmentBytes := by
    intro hfit
    obtain ⟨v, hv, _⟩ := append_accepted_layout h.stores.toLayout data hfit
    rw [happ] at hv
    cases hv
  have hdir : (m.disk.calls (appendCalls m.wal data)).dir = w'.dir := by
    have := operation_calls_dir (d := m.disk) rfl (.append data)
    rwa [Operation.calls, Operation.run, happ] at this
  obtain ⟨v, hv, hst, hm, _⟩ := append_rejected h.stores data hfit
  rw [happ] at hv
  cases hv
  obtain ⟨id', hholds⟩ := append_refused h.stores h.holds hfit
  exact ⟨hm.config, _, _, tracks_of hst hdir hholds,
    .stop (.firmer (by simp [Log.held]) (List.prefix_append _ _))⟩

theorem Tracks.truncate_step {m : Machine} (h : Tracks m c l) {w' : Wal} {b : ℕ}
    {result : Except WalError Unit} (htr : m.wal.truncateBefore b = (result, w')) :
    w'.config = m.wal.config ∧
      ∃ c' l', Tracks (m.after (truncateCalls b m.wal.sealed m.wal.dir) w') c' l' ∧
        DurableLog.Step l (.stop [] (lostIn (some (.truncateBefore b)))) l' := by
  have hdir : (m.disk.calls (truncateCalls b m.wal.sealed m.wal.dir)).dir = w'.dir := by
    have := operation_calls_dir (d := m.disk) rfl (.truncateBefore b)
    rwa [Operation.calls, Operation.run, htr] at this
  obtain ⟨v, hv, hst, hm, _⟩ := truncateBefore_spec h.stores b
  rw [htr] at hv
  cases hv
  have h' : Holds m.disk m.wal.active.id ⟨[] ++ c.sealed, c.active⟩ l := h.holds
  obtain ⟨back, l', gone, hholds, hfirm, hgone, hloose, hall⟩ :=
    truncate_walk h' (by simp) (List.prefix_refl (truncateCalls b _ m.wal.dir))
  rw [hall rfl, ← h.stores.sealed_ids] at hholds
  exact ⟨hm.config, _, l', tracks_of hst hdir hholds, .stop (.forgot hfirm hgone hloose)⟩

theorem Tracks.sync_step {m : Machine} (h : Tracks m c l) :
    Tracks (m.after (syncCalls m.wal.active) m.wal.sync) c ⟨l.held, []⟩ := by
  have hst : Stores m.wal.sync c := by
    rw [Wal.sync, sync_flushed h.stores.flushed]
    exact h.stores
  have hholds : Holds (m.disk.calls (syncCalls m.wal.active)) m.wal.active.id c ⟨l.held, []⟩ := by
    simpa [syncCalls, flushCalls, h.stores.flushed, call_write_nil] using h.holds.fsync.1
  exact tracks_of hst rfl hholds

theorem Tracks.checkpoint_step {m : Machine} (h : Tracks m c l) (sequence : ℕ) :
    Tracks (m.after (checkpointCalls m.wal sequence) (m.wal.checkpoint sequence)) c l := by
  have hdir := operation_calls_dir (d := m.disk) rfl (.checkpoint sequence)
  have hholds : Holds (m.disk.calls (checkpointCalls m.wal sequence)) m.wal.active.id c l := by
    rw [checkpointCalls]
    split
    · exact h.holds.replaceCheckpoint _
    · exact h.holds
  exact tracks_of (checkpoint_stores h.stores sequence) hdir hholds

/-- Every step is one of the durable log: this is where the files become a list. -/
theorem Tracks.step {m m' : Machine} {e : Event} (h : Tracks m c l)
    (hmax : m.wal.config.maxSegmentBytes ≤ 2 ^ 32) (hs : Step m e m') :
    m'.wal.config = m.wal.config ∧ ∃ c' l', Tracks m' c' l' ∧
      DurableLog.Step l (e.change m.wal.config.syncWrites) l' := by
  cases hs with
  | append hseq happ => exact h.append_step hmax hseq happ
  | reject happ => exact h.reject_step happ
  | checkpoint sequence =>
    exact ⟨rfl, c, l, h.checkpoint_step sequence, .stop (.firmer rfl List.prefix_rfl)⟩
  | truncate htr => exact h.truncate_step htr
  | sync => exact ⟨rfl, c, _, h.sync_step, .harden (by simp [Log.held]) rfl⟩
  | reopen hopen =>
    obtain ⟨hcfg, htracks⟩ := restart_tracks h.holds hopen
    exact ⟨hcfg, c, l, htracks, .stop (.firmer rfl List.prefix_rfl)⟩
  | kill hperm hdone hopen =>
    obtain ⟨_, c', l', hholds, hmid⟩ := operation_walk h.stores h.holds rfl hmax hperm hdone
    obtain ⟨hcfg, htracks⟩ := restart_tracks hholds hopen
    exact ⟨hcfg, c', l', htracks, .stop hmid⟩
  | outage hperm hdone hout hopen =>
    obtain ⟨_, _, l₁, hholds, hmid⟩ := operation_walk h.stores h.holds rfl hmax hperm hdone
    obtain ⟨v, c', kept, hv, hcfg, hkept, htracks⟩ :=
      survives_outage m.wal.config hholds hout (whole_of_open hopen)
    rw [hopen] at hv
    cases hv
    exact ⟨hcfg, c', _, htracks, .outage hmid hkept⟩

theorem Run.refines {es : List Event} {m : Machine}
    (hmax : config.maxSegmentBytes ≤ 2 ^ 32) (run : Run config es m) :
    m.wal.config = config ∧ ∃ c l, Tracks m c l ∧
      Steps DurableLog.Step Log.empty (changes config es) l := by
  obtain ⟨w₀, hopen, hsteps⟩ := run
  induction hsteps with
  | nil =>
    obtain ⟨v, hv, hcfg, htracks⟩ :=
      open_none (d := ⟨Dir.empty, fun _ => none⟩) config rfl
    rw [hopen] at hv
    cases hv
    exact ⟨hcfg, _, _, htracks, .nil _⟩
  | snoc _ hstep ih =>
    obtain ⟨hcfg, c, l, htracks, hrun⟩ := ih
    obtain ⟨hcfg', c', l', htracks', hlog⟩ := htracks.step (hcfg ▸ hmax) hstep
    rw [hcfg] at hlog
    refine ⟨hcfg'.trans hcfg, c', l', htracks', ?_⟩
    rw [changes, List.map_append]
    exact .snoc hrun hlog

theorem Run.snoc {es : List Event} {e : Event} {m m' : Machine} (run : Run config es m)
    (hs : Step m e m') : Run config (es ++ [e]) m' := by
  obtain ⟨w₀, hopen, hsteps⟩ := run
  exact ⟨w₀, hopen, .snoc hsteps hs⟩

/-- One byte appended to a log that syncs its writes. -/
theorem run_first_append : ∃ m : Machine, Run ⟨64, true⟩ [.appended 1 [7]] m ∧
    m.wal.nextSequence = 2 := by
  obtain ⟨w, hopen, hst, hc, hn, _⟩ := open_empty ⟨64, true⟩
  have run : Run ⟨64, true⟩ [] (restarted ⟨Dir.empty, fun _ => none⟩ w) := ⟨w, hopen, .nil _⟩
  obtain ⟨w', happ, _, _, hn'⟩ := append_accepted hst [7] (by decide)
    (by rw [hn]; decide) (by rw [hc]; decide)
  rw [hn] at happ hn'
  exact ⟨_, run.snoc (.append (by rw [restarted, hn]; decide) happ), hn'⟩

/-- Over every run, what is read back is numbered up to the counter, consists of records
that were appended or being appended, in that order, and has every secured one. -/
theorem secured_entries_survive {es : List Event} {m : Machine}
    (hmax : config.maxSegmentBytes ≤ 2 ^ 32) (run : Run config es m) :
    ∃ held, m.wal.readFrom 1 = .ok held ∧ Numbered m.wal.nextSequence held ∧
      held.Sublist (DurableLog.added (changes config es)) ∧
      ∀ e, DurableLog.Secured (changes config es) e → e ∈ held := by
  obtain ⟨_, c, l, htracks, hrun⟩ := run.refines hmax
  refine ⟨c.entries, htracks.stores.readFrom_one, htracks.stores.numbered, ?_, ?_⟩
  · rw [← htracks.holds.held]
    exact DurableLog.Run.sublist hrun
  · intro e he
    rw [← htracks.holds.held]
    exact DurableLog.Run.secured hrun he

end

/-- The record of a finished append comes back after the worst outage. -/
theorem secured_entries_survive_first :
    ∃ m held, @Run ieee ⟨64, true⟩ [.appended 1 [7], .outage none 2] m ∧
      @Wal.readFrom ieee m.wal 1 = .ok held ∧ ⟨1, [7]⟩ ∈ held := by
  let _ : Crc32 := ieee
  obtain ⟨m, run, hn⟩ := run_first_append
  obtain ⟨hcfg, c, l, htracks, hrun⟩ := run.refines (by decide)
  have hloose : l.loose = [] := by
    refine DurableLog.Run.tight hrun ⟨[], _, rfl, ?_, Or.inl rfl⟩
    simp [Event.change, Change.Tight]
  have hout := outage_durable m.disk
  obtain ⟨w, _, _, hopen, _⟩ := survives_outage m.wal.config htracks.holds hout
    (whole_of_tight htracks.holds hout hloose)
  have hstep : Step m (.outage none 2) (restarted (settled m.disk.durable) w) :=
    hn ▸ .outage trivial List.prefix_rfl hout hopen
  have run' := run.snoc hstep
  obtain ⟨held, hread, _, _, hsecured⟩ := secured_entries_survive (by decide) run'
  refine ⟨_, held, run', hread, hsecured _ ⟨[], true, _, rfl, ?_, Or.inr ?_⟩⟩
  · simp [Event.change, Change.Loses, lostIn]
  · exact ⟨[], _, _, rfl, rfl, by simp⟩

section

variable [Crc32] {config : WalConfig}

/-- After an outage at any point of any run the log opens exactly when its last segment
ends with a whole record. With everything firm only an append can break that. -/
theorem outage_reopens {es : List Event} {m : Machine}
    (hmax : config.maxSegmentBytes ≤ 2 ^ 32) (run : Run config es m)
    {during : Option Operation} (hperm : Permitted m.wal during) {done : List Syscall}
    (hdone : done <+: callsOf m.wal during) {d' : Dir}
    (hout : Outage (m.disk.calls done) d') :
    ((∃ w, Wal.open config d' = .ok w) ↔ WholeRecords d') ∧
      (DurableLog.Tight (changes config es) → (∀ data, during ≠ some (.append data)) →
        WholeRecords d') := by
  obtain ⟨hcfg, c, l, htracks, hrun⟩ := run.refines hmax
  obtain ⟨_, c₁, l₁, hholds, hmid⟩ :=
    operation_walk htracks.stores htracks.holds rfl (hcfg ▸ hmax) hperm hdone
  refine ⟨⟨fun ⟨w, hopen⟩ => whole_of_open hopen, fun hwhole => ?_⟩, fun htight hnot => ?_⟩
  · obtain ⟨w, _, _, hopen, _⟩ := survives_outage config hholds hout hwhole
    exact ⟨w, hopen⟩
  · have hpending : pendingIn m.wal.nextSequence during = [] := by
      cases during with
      | none => rfl
      | some op =>
        cases op with
        | append data => exact absurd rfl (hnot data)
        | _ => rfl
    exact whole_of_tight hholds hout ((hpending ▸ hmid).tight (DurableLog.Run.tight hrun htight))

end

theorem outage_reopens_first :
    ∃ m d', @Run ieee ⟨64, true⟩ [.appended 1 [7]] m ∧ Outage m.disk d' ∧
      ∃ w, @Wal.open ieee ⟨64, true⟩ d' = .ok w := by
  let _ : Crc32 := ieee
  obtain ⟨m, run, _⟩ := run_first_append
  have hout : Outage (m.disk.calls []) m.disk.durable := outage_durable m.disk
  have hperm : Permitted m.wal none := trivial
  obtain ⟨hopens, hwhole⟩ := outage_reopens (by decide) run hperm List.prefix_rfl hout
  have htight : DurableLog.Tight (changes ⟨64, true⟩ [.appended 1 [7]]) := by
    refine ⟨[], _, rfl, ?_, Or.inl rfl⟩
    simp [Event.change, Change.Tight]
  exact ⟨m, _, run, hout, hopens.mpr (hwhole htight (by simp))⟩

end WalPowerLoss
