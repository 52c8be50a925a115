import DistributedWal.RaftNodeAgreement
import DistributedWal.RaftNodeVotes

/-! # AppendEntries on a WAL that fails

The handler with the answers of the WAL to its appends as an argument. The loop ignores
them: after a record that is not written the log is behind the request, or keeps the entry
that was in conflict, and the reply is still a success.
-/
namespace RaftNodeFailedAppends

open LittleEndianCodec WalSegment WalEngine ReplicatedLog RaftNode RaftNodeAppends
open RaftNodeAgreement RaftNodeHandlers RaftNodeLogs RaftNodeVotes WalContents
open ReplicatedLogContents
open WalEntry (Crc32 ieee WalError)

/-- How the `k`-th append of a handler to the WAL ends. -/
abbrev WalCalls := ℕ → Wal → Bytes → Except WalError ℕ × Wal

/-- The answers alone, whatever is appended. -/
def answers (o : ℕ → Except WalError ℕ × Wal) : WalCalls := fun k _ _ => o k

/-- The appends made so far beside the node. -/
abbrev Storing := ℕ × Node

def RaftLog.appendWith (call : Wal → Bytes → Except WalError ℕ × Wal) (log : RaftLog)
    (term : ℕ) (data : Bytes) : Except WalError ℕ × RaftLog :=
  let index := log.lastIndex + 1
  let entry : LogEntry := ⟨term, index, data⟩
  match call log.wal (encodeAppend entry) with
  | (.error e, wal) => (.error e, { log with wal := wal })
  | (.ok _, wal) => (.ok index, { log with wal := wal, entries := log.entries ++ [entry] })

def RaftLog.truncateFromWith (call : Wal → Bytes → Except WalError ℕ × Wal) (log : RaftLog)
    (fromIndex : ℕ) : Except WalError Unit × RaftLog :=
  match call log.wal (encodeTruncate fromIndex) with
  | (.error e, wal) => (.error e, { log with wal := wal })
  | (.ok _, wal) =>
    (.ok (), { log with
      wal := wal
      entries := log.entries.take (fromIndex - log.snapshotIndex - 1) })

def appendLogWith (call : WalCalls) (s : Storing) (term : ℕ) (data : Bytes) : Storing :=
  (s.1 + 1, { s.2 with log := (RaftLog.appendWith (call s.1) s.2.log term data).2 }.mark)

/-- A truncation of nothing writes no record. -/
def truncateLogWith (call : WalCalls) (s : Storing) (fromIndex : ℕ) : Storing :=
  if fromIndex ≤ s.2.log.snapshotIndex ∨ fromIndex > s.2.log.lastIndex then (s.1, s.2.mark)
  else
    (s.1 + 1, { s.2 with log := (RaftLog.truncateFromWith (call s.1) s.2.log fromIndex).2 }.mark)

def storeEntryWith (call : WalCalls) (s : Storing) (e : LogEntry) : Storing :=
  match s.2.log.termAt e.index with
  | some t =>
    if t = e.term then s
    else appendLogWith call (truncateLogWith call s e.index) e.term e.data
  | none => appendLogWith call s e.term e.data

def storeEntriesWith (call : WalCalls) (s : Storing) (entries : List LogEntry) : Storing :=
  entries.foldl (storeEntryWith call) s

def Node.onAppendEntriesWith (call : WalCalls) (n : Node) (req : AppendEntriesRequest) :
    AppendEntriesResponse × Node :=
  if req.term < n.ps.currentTerm then (n.aeReject 0 0, n)
  else
    let n := n.acceptLeader req.term req.leaderId
    match n.checkPrevious req with
    | some rejection => (rejection, n)
    | none =>
      let n := (storeEntriesWith call (0, n) req.entries).2
      let n :=
        if req.leaderCommit > n.commitIndex then
          { n with commitIndex := min req.leaderCommit n.log.lastIndex }
        else n
      (⟨n.ps.currentTerm, true, 0, 0⟩, n)

/-- Rule 4 for one entry on the view of the log; `ok` says which records are written. -/
def pushUnder (ok : ℕ → Bool) (s : ℕ × LogView) (e : LogEntry) : ℕ × LogView :=
  (s.1 + 1, if ok s.1 then s.2.push e.term e.data else s.2)

def cutUnder (ok : ℕ → Bool) (s : ℕ × LogView) (i : ℕ) : ℕ × LogView :=
  if i ≤ s.2.snapshotIndex ∨ i > s.2.lastIndex then s
  else (s.1 + 1, if ok s.1 then s.2.cut i else s.2)

def storeUnder (ok : ℕ → Bool) (s : ℕ × LogView) (e : LogEntry) : ℕ × LogView :=
  match s.2.termAt e.index with
  | some t => if t = e.term then s else pushUnder ok (cutUnder ok s e.index) e
  | none => pushUnder ok s e

def storeAllUnder (ok : ℕ → Bool) (s : ℕ × LogView) (entries : List LogEntry) : ℕ × LogView :=
  entries.foldl (storeUnder ok) s

def written (o : ℕ → Except WalError ℕ × Wal) (k : ℕ) : Bool := (o k).1.isOk

def view (s : Storing) : ℕ × LogView := (s.1, s.2.log.toLogView)

theorem appendWith_view (call : Wal → Bytes → Except WalError ℕ × Wal) (log : RaftLog)
    (e : LogEntry) :
    (RaftLog.appendWith call log e.term e.data).2.toLogView =
      if (call log.wal (encodeAppend ⟨e.term, log.lastIndex + 1, e.data⟩)).1.isOk then
        log.push e.term e.data
      else log.toLogView := by
  rw [RaftLog.appendWith]
  split
  · rename_i hcall
    rw [hcall]
    rfl
  · rename_i hcall
    rw [hcall]
    rfl

theorem truncateFromWith_view (call : Wal → Bytes → Except WalError ℕ × Wal) (log : RaftLog)
    (i : ℕ) :
    (RaftLog.truncateFromWith call log i).2.toLogView =
      if (call log.wal (encodeTruncate i)).1.isOk then log.cut i else log.toLogView := by
  rw [RaftLog.truncateFromWith]
  split
  · rename_i hcall
    rw [hcall]
    rfl
  · rename_i hcall
    rw [hcall]
    rfl

theorem view_appendLogWith (o : ℕ → Except WalError ℕ × Wal) (s : Storing) (e : LogEntry) :
    view (appendLogWith (answers o) s e.term e.data) = pushUnder (written o) (view s) e := by
  simp only [view, appendLogWith, pushUnder, Node.mark, appendWith_view]
  rfl

theorem view_truncateLogWith (o : ℕ → Except WalError ℕ × Wal) (s : Storing) (i : ℕ) :
    view (truncateLogWith (answers o) s i) = cutUnder (written o) (view s) i := by
  rw [truncateLogWith, cutUnder]
  by_cases hout : i ≤ s.2.log.snapshotIndex ∨ i > s.2.log.lastIndex
  · rw [if_pos hout]
    exact (if_pos hout).symm
  · rw [if_neg hout, if_neg (by exact hout)]
    simp only [view, Node.mark, truncateFromWith_view]
    rfl

theorem view_storeEntryWith (o : ℕ → Except WalError ℕ × Wal) (s : Storing) (e : LogEntry) :
    view (storeEntryWith (answers o) s e) = storeUnder (written o) (view s) e := by
  rw [storeEntryWith, storeUnder]
  have hterm : (view s).2.termAt e.index = s.2.log.termAt e.index := rfl
  rw [hterm]
  cases s.2.log.termAt e.index with
  | none => exact view_appendLogWith o s e
  | some t =>
    dsimp only
    by_cases ht : t = e.term
    · rw [if_pos ht, if_pos ht]
    · rw [if_neg ht, if_neg ht, view_appendLogWith, view_truncateLogWith]

theorem view_storeEntriesWith (o : ℕ → Except WalError ℕ × Wal) (s : Storing)
    (entries : List LogEntry) :
    view (storeEntriesWith (answers o) s entries) =
      storeAllUnder (written o) (view s) entries := by
  induction entries generalizing s with
  | nil => rfl
  | cons e entries ih =>
    rw [storeEntriesWith, List.foldl_cons, ← storeEntriesWith, ih, view_storeEntryWith]
    rfl

section

variable {ok : ℕ → Bool} {k : ℕ} {v : LogView}

@[simp] theorem storeAllUnder_nil (s : ℕ × LogView) : storeAllUnder ok s [] = s := rfl

@[simp] theorem storeAllUnder_cons (s : ℕ × LogView) (e : LogEntry) (entries : List LogEntry) :
    storeAllUnder ok s (e :: entries) = storeAllUnder ok (storeUnder ok s e) entries := rfl

theorem entryAt_push {p : ℕ} {x : LogEntry} (hx : entryAt v p = some x) (term : ℕ)
    (data : Bytes) : entryAt (v.push term data) p = some x := by
  have hlow := (entryAt_bounds hx).1
  rw [entryAt_above hlow] at hx
  rw [entryAt_above (by exact hlow)]
  have hlt := (List.getElem?_eq_some_iff.mp hx).1
  simp only [LogView.push, List.getElem?_append_left hlt, hx]

theorem entryAt_cut {p i : ℕ} {x : LogEntry} (hx : entryAt v p = some x) (hp : p < i) :
    entryAt (v.cut i) p = some x := by
  have hlow := (entryAt_bounds hx).1
  rw [entryAt_above hlow] at hx
  rw [entryAt_above (by exact hlow)]
  have hlt : p - v.snapshotIndex - 1 < i - v.snapshotIndex - 1 := by omega
  simp only [LogView.cut, List.getElem?_take_of_lt hlt, hx]

theorem pushUnder_entryAt {s : ℕ × LogView} {e : LogEntry} {p : ℕ} {x : LogEntry}
    (hx : entryAt s.2 p = some x) : entryAt (pushUnder ok s e).2 p = some x := by
  simp only [pushUnder]
  by_cases hok : ok s.1 = true
  · rw [if_pos hok]
    exact entryAt_push hx e.term e.data
  · rw [if_neg hok]
    exact hx

theorem cutUnder_entryAt {s : ℕ × LogView} {i p : ℕ} {x : LogEntry}
    (hx : entryAt s.2 p = some x) (hp : p < i ∨ ok s.1 = false) :
    entryAt (cutUnder ok s i).2 p = some x := by
  rw [cutUnder]
  by_cases hout : i ≤ s.2.snapshotIndex ∨ i > s.2.lastIndex
  · rw [if_pos hout]
    exact hx
  · rw [if_neg hout]
    by_cases hok : ok s.1 = true
    · simp only [hok, if_true]
      apply entryAt_cut hx
      rcases hp with hp | hfail
      · exact hp
      · rw [hok] at hfail
        cases hfail
    · simp only [hok]
      exact hx

/-- An entry before the ones that are stored stays, whatever is written. -/
theorem storeUnder_entryAt {e : LogEntry} {p : ℕ} {x : LogEntry}
    (hx : entryAt v p = some x) (hp : p < e.index) :
    entryAt (storeUnder ok (k, v) e).2 p = some x := by
  rw [storeUnder]
  split
  · split
    · exact hx
    · exact pushUnder_entryAt (cutUnder_entryAt hx (Or.inl hp))
  · exact pushUnder_entryAt hx

theorem storeAllUnder_entryAt {i : ℕ} {entries : List LogEntry} (hes : Consecutive i entries)
    {p : ℕ} {x : LogEntry} (hx : entryAt v p = some x) (hp : p < i) :
    entryAt (storeAllUnder ok (k, v) entries).2 p = some x := by
  induction entries generalizing k v i with
  | nil => exact hx
  | cons e entries ih =>
    have hindex := hes.head
    exact ih hes.tail (storeUnder_entryAt hx (by omega)) (by omega)

/-- Behind the end of the log an entry is pushed or lost. -/
theorem storeUnder_behind {e : LogEntry} (hlast : v.lastIndex < e.index) :
    storeUnder ok (k, v) e = (k + 1, if ok k then v.push e.term e.data else v) := by
  rw [storeUnder, termAt_beyond hlast]
  rfl

theorem push_lastIndex (term : ℕ) (data : Bytes) :
    (v.push term data).lastIndex = v.lastIndex + 1 := by
  simp only [LogView.push, LogView.lastIndex, List.length_append, List.length_singleton,
    Nat.add_assoc]

/-- Entries that start behind a gap never reach the last index of the request. -/
theorem storeAllUnder_gap {i : ℕ} {entries : List LogEntry} (hes : Consecutive i entries)
    (hlast : v.lastIndex + 1 < i) :
    (storeAllUnder ok (k, v) entries).2.lastIndex + 1 < i + entries.length := by
  induction entries generalizing k v i with
  | nil => simpa using hlast
  | cons e entries ih =>
    have hindex := hes.head
    rw [storeAllUnder_cons, storeUnder_behind (by omega)]
    have hstep : (if ok k then v.push e.term e.data else v).lastIndex ≤ v.lastIndex + 1 := by
      split
      · rw [push_lastIndex]
      · omega
    have hrest := ih (k := k + 1) (v := if ok k then v.push e.term e.data else v) hes.tail
      (by omega)
    rw [List.length_cons]
    omega

/-- Entries that start right behind the log are all pushed, or one of them is lost. -/
theorem storeAllUnder_behind {i : ℕ} {entries : List LogEntry} (hes : Consecutive i entries)
    (hlast : v.lastIndex + 1 = i) :
    (∀ j < entries.length, ok (k + j) = true) ∧
        (storeAllUnder ok (k, v) entries).2 = { v with entries := v.entries ++ entries } ∨
      ¬ (∀ j < entries.length, ok (k + j) = true) ∧
        (storeAllUnder ok (k, v) entries).2.lastIndex + 1 < i + entries.length := by
  induction entries generalizing k v i with
  | nil => exact Or.inl ⟨by simp, by simp⟩
  | cons e entries ih =>
    have hindex := hes.head
    have hshift : (∀ j < (e :: entries).length, ok (k + j) = true) ↔
        ok k = true ∧ ∀ j < entries.length, ok (k + 1 + j) = true := by
      constructor
      · intro h
        refine ⟨h 0 (by simp), fun j hj => ?_⟩
        have := h (j + 1) (by simpa using hj)
        rwa [show k + 1 + j = k + (j + 1) by omega]
      · rintro ⟨h, hrest⟩ j hj
        cases j with
        | zero => exact h
        | succ j =>
          rw [show k + (j + 1) = k + 1 + j by omega]
          exact hrest j (by simpa using hj)
    rw [storeAllUnder_cons, storeUnder_behind (by omega), hshift]
    cases hok : ok k with
    | true =>
      have hpush : v.push e.term e.data = { v with entries := v.entries ++ [e] } := by
        rw [LogView.push, hlast, ← hindex]
      simp only [if_true, true_and]
      rcases ih (k := k + 1) (v := v.push e.term e.data) hes.tail
        (by rw [push_lastIndex]; omega) with ⟨hall, hfull⟩ | ⟨hlost, hshort⟩
      · left
        refine ⟨hall, ?_⟩
        rw [hfull, hpush, List.append_assoc, List.singleton_append]
      · right
        refine ⟨hlost, ?_⟩
        rw [List.length_cons]
        omega
    | false =>
      right
      refine ⟨by simp, ?_⟩
      have hrest := @storeAllUnder_gap ok (k + 1) v _ _ hes.tail (by omega)
      simp only [Bool.false_eq_true, if_false]
      rw [List.length_cons]
      omega

/-- The entries at the front of the request whose terms the log has already. -/
def skipped (v : LogView) (entries : List LogEntry) : List LogEntry :=
  entries.takeWhile (fun e => v.termAt e.index = some e.term)

/-- The records that the request needs: one for each entry that is not skipped, and one for
the truncation when the first of them is in conflict. -/
def records (v : LogView) (entries : List LogEntry) : ℕ :=
  match entries.dropWhile (fun e => v.termAt e.index = some e.term) with
  | [] => 0
  | e :: rest => (rest.length + 1) + if v.termAt e.index = none then 0 else 1

/-- The log holds every entry at its index, and nothing new besides. -/
structure Held (v w : LogView) (entries : List LogEntry) : Prop where
  held : ∀ e ∈ entries, entryAt w e.index = some e
  placed : ∀ x ∈ w.entries, x ∈ v.entries ∨ x ∈ entries

theorem Held.cons_iff {w : LogView} {e : LogEntry} {entries : List LogEntry}
    (he : entryAt w e.index = entryAt v e.index) :
    Held v w (e :: entries) ↔ Held v w entries ∧ entryAt v e.index = some e := by
  constructor
  · rintro ⟨hheld, hplaced⟩
    have hold : entryAt v e.index = some e := he ▸ hheld e (by simp)
    refine ⟨⟨fun x hx => hheld x (List.mem_cons_of_mem e hx), fun x hx => ?_⟩, hold⟩
    rcases hplaced x hx with hv | hx
    · exact Or.inl hv
    · rcases List.mem_cons.mp hx with rfl | hx
      · rw [entryAt_above (entryAt_bounds hold).1] at hold
        exact Or.inl (List.mem_of_getElem? hold)
      · exact Or.inr hx
  · rintro ⟨⟨hheld, hplaced⟩, hold⟩
    refine ⟨fun x hx => ?_, fun x hx => (hplaced x hx).imp_right (List.mem_cons_of_mem e)⟩
    rcases List.mem_cons.mp hx with rfl | hx
    · rw [he, hold]
    · exact hheld x hx

/-- Entries behind the log: held exactly when all of them are written. -/
theorem held_behind {u : LogView} {i : ℕ} {entries : List LogEntry}
    (hsub : v.entries ⊆ u.entries) (hes : Consecutive i entries)
    (hi : v.snapshotIndex < i) (hlast : v.lastIndex + 1 = i) (hne : entries ≠ []) :
    Held u (storeAllUnder ok (k, v) entries).2 entries ↔
      ∀ j < entries.length, ok (k + j) = true := by
  rcases @storeAllUnder_behind ok k v i entries hes hlast with ⟨hall, hfull⟩ | ⟨hlost, hshort⟩
  · refine iff_of_true ⟨?_, ?_⟩ hall
    · intro e he
      obtain ⟨hlow, _, hget⟩ := hes.mem he
      rw [LogView.lastIndex] at hlast
      rw [hfull, entryAt_above (by show v.snapshotIndex < e.index; omega)]
      simp only
      rw [List.getElem?_append_right (by omega), ← hget]
      congr 1
      omega
    · intro x hx
      rw [hfull] at hx
      exact (List.mem_append.mp hx).imp_left (fun h => hsub h)
  · refine iff_of_false ?_ hlost
    intro h
    have hlen := List.length_pos_iff.mpr hne
    obtain ⟨e, he⟩ : ∃ e, entries[entries.length - 1]? = some e :=
      ⟨_, List.getElem?_eq_getElem (by omega)⟩
    have hindex := hes _ e he
    have hbound := (entryAt_bounds (h.held e (List.mem_of_getElem? he))).2
    omega

theorem cut_lastIndex {i : ℕ} (hi : v.snapshotIndex < i) (hlast : i ≤ v.lastIndex) :
    (v.cut i).lastIndex + 1 = i := by
  rw [LogView.lastIndex] at hlast
  simp only [LogView.cut, LogView.lastIndex, List.length_take]
  omega

/-- The first entry is in conflict with the log: the truncation is one more record. -/
theorem held_conflict {i t : ℕ} {e : LogEntry} {entries : List LogEntry}
    (hes : Consecutive i (e :: entries)) (hi : v.snapshotIndex < i)
    (hfound : v.termAt e.index = some t) (hne : t ≠ e.term) :
    Held v (storeAllUnder ok (k, v) (e :: entries)).2 (e :: entries) ↔
      ∀ j < (e :: entries).length + 1, ok (k + j) = true := by
  have hindex := hes.head
  have hle := termAt_le_last hfound
  have hin : ¬ (e.index ≤ v.snapshotIndex ∨ e.index > v.lastIndex) := by omega
  have hstore : storeUnder ok (k, v) e =
      pushUnder ok (k + 1, if ok k then v.cut e.index else v) e := by
    simp only [storeUnder, hfound, if_neg hne, cutUnder, if_neg hin]
  cases hok : ok k with
  | false =>
    -- the entry in conflict stays in its place
    obtain ⟨x, hx, hxt⟩ : ∃ x, entryAt v e.index = some x ∧ x.term = t := by
      rw [termAt_entryAt (by omega)] at hfound
      exact Option.map_eq_some_iff.mp hfound
    refine iff_of_false ?_ ?_
    · intro h
      have hstay : entryAt (storeUnder ok (k, v) e).2 e.index = some x := by
        rw [hstore, hok]
        exact pushUnder_entryAt hx
      have hkept := @storeAllUnder_entryAt ok (storeUnder ok (k, v) e).1 _ _ _ hes.tail _ _
        hstay (by omega)
      have hheld := h.held e (by simp)
      rw [storeAllUnder_cons, hkept] at hheld
      cases hheld
      exact hne hxt.symm
    · intro h
      have := h 0 (by omega)
      rw [Nat.add_zero, hok] at this
      cases this
  | true =>
    have hcut : (v.cut e.index).lastIndex + 1 = e.index := cut_lastIndex (by omega) hle
    have hsame : storeUnder ok (k, v) e = storeUnder ok (k + 1, v.cut e.index) e := by
      rw [hstore, hok, if_pos rfl,
        storeUnder_behind (v := v.cut e.index) (k := k + 1) (by omega)]
      rfl
    have hsub : (v.cut e.index).entries ⊆ v.entries := fun x hx => List.mem_of_mem_take hx
    rw [storeAllUnder_cons, hsame, ← storeAllUnder_cons,
      held_behind hsub hes hi (by omega) (by simp)]
    constructor
    · intro h j hj
      cases j with
      | zero => exact hok
      | succ j =>
        rw [show k + (j + 1) = k + 1 + j by omega]
        exact h j (by omega)
    · intro h j hj
      rw [show k + 1 + j = k + (j + 1) by omega]
      exact h (j + 1) (by omega)

/-- The loop leaves the entries of the request in their places exactly when the records it
needs are written and the skipped entries are those of the log. -/
theorem held_iff {i : ℕ} {entries : List LogEntry} (hes : Consecutive i entries)
    (hi : v.snapshotIndex < i) (hlast : i ≤ v.lastIndex + 1) :
    Held v (storeAllUnder ok (k, v) entries).2 entries ↔
      (∀ j < records v entries, ok (k + j) = true) ∧
        ∀ e ∈ skipped v entries, entryAt v e.index = some e := by
  induction entries generalizing i with
  | nil =>
    refine iff_of_true ⟨by simp, fun x hx => Or.inl hx⟩ ⟨?_, by simp [skipped]⟩
    intro j hj
    exact absurd hj (Nat.not_lt_zero j)
  | cons e entries ih =>
    have hindex := hes.head
    by_cases hterm : v.termAt e.index = some e.term
    · -- the entry is skipped
      have hskip : skipped v (e :: entries) = e :: skipped v entries := by
        simp [skipped, hterm]
      have hcalls : records v (e :: entries) = records v entries := by
        simp [records, hterm]
      have hstay : storeUnder ok (k, v) e = (k, v) := by
        simp [storeUnder, hterm]
      have hle := termAt_le_last hterm
      obtain ⟨x, hx⟩ : ∃ x, entryAt v e.index = some x := by
        rw [termAt_entryAt (by omega)] at hterm
        obtain ⟨x, hx, _⟩ := Option.map_eq_some_iff.mp hterm
        exact ⟨x, hx⟩
      have hkept := @storeAllUnder_entryAt ok k v _ _ hes.tail _ _ hx (by omega)
      rw [storeAllUnder_cons, hstay, Held.cons_iff (by rw [hkept, hx]),
        ih hes.tail (by omega) (by omega), hskip, hcalls, List.forall_mem_cons, and_assoc,
        and_comm (b := entryAt v e.index = some e)]
    · have hskip : skipped v (e :: entries) = [] := by
        simp [skipped, hterm]
      simp only [hskip, List.not_mem_nil, false_implies, implies_true, and_true]
      cases hfound : v.termAt e.index with
      | none =>
        -- the entry is right behind the log
        have hend : v.lastIndex + 1 = i := by
          by_contra hne
          obtain ⟨t, ht⟩ := termAt_known (v := v) (i := e.index) (by omega) (by omega) (by omega)
          rw [ht] at hfound
          cases hfound
        have hcalls : records v (e :: entries) = (e :: entries).length := by
          simp [records, hfound]
        rw [hcalls]
        exact held_behind (List.Subset.refl _) hes hi hend (by simp)
      | some t =>
        have hne : t ≠ e.term := by
          rintro rfl
          exact hterm hfound
        have hcalls : records v (e :: entries) = (e :: entries).length + 1 := by
          simp [records, hfound, hne]
        rw [hcalls]
        exact held_conflict hes hi hfound hne

end

section

variable [Crc32]

/-- On a WAL without faults the handler is the one of the node. -/
theorem storeEntryWith_append (s : Storing) (e : LogEntry) :
    (storeEntryWith (fun _ wal data => wal.append data) s e).2 = s.2.storeEntry e := by
  rw [storeEntryWith, Node.storeEntry]
  cases s.2.log.termAt e.index with
  | none => rfl
  | some t =>
    dsimp only
    by_cases ht : t = e.term
    · rw [if_pos ht, if_pos ht]
    · rw [if_neg ht, if_neg ht, truncateLogWith, Node.truncateLog, RaftLog.truncateFrom]
      by_cases hout : e.index ≤ s.2.log.snapshotIndex ∨ e.index > s.2.log.lastIndex
      · rw [if_pos hout, if_pos hout]
        rfl
      · rw [if_neg hout, if_neg hout]
        rfl

theorem storeEntriesWith_append (s : Storing) (entries : List LogEntry) :
    (storeEntriesWith (fun _ wal data => wal.append data) s entries).2 =
      s.2.storeEntries entries := by
  induction entries generalizing s with
  | nil => rfl
  | cons e entries ih =>
    rw [storeEntriesWith, List.foldl_cons, ← storeEntriesWith, ih, storeEntryWith_append]
    rfl

theorem onAppendEntriesWith_append (n : Node) (req : AppendEntriesRequest) :
    Node.onAppendEntriesWith (fun _ wal data => wal.append data) n req =
      n.onAppendEntries req := by
  rw [Node.onAppendEntriesWith]
  simp only [storeEntriesWith_append]
  rfl

end

theorem appendLogWith_answers {call : WalCalls} {o : ℕ → Except WalError ℕ × Wal} {s : Storing}
    {e : LogEntry}
    (h : o s.1 = call s.1 s.2.log.wal (encodeAppend ⟨e.term, s.2.log.lastIndex + 1, e.data⟩)) :
    appendLogWith (answers o) s e.term e.data = appendLogWith call s e.term e.data := by
  simp only [appendLogWith, RaftLog.appendWith, answers, h]

theorem truncateLogWith_answers {call : WalCalls} {o : ℕ → Except WalError ℕ × Wal}
    {s : Storing} {i : ℕ}
    (h : s.1 < (truncateLogWith call s i).1 →
      o s.1 = call s.1 s.2.log.wal (encodeTruncate i)) :
    truncateLogWith (answers o) s i = truncateLogWith call s i := by
  rw [truncateLogWith] at h ⊢
  rw [truncateLogWith]
  by_cases hout : i ≤ s.2.log.snapshotIndex ∨ i > s.2.log.lastIndex
  · rw [if_pos hout, if_pos hout]
  · rw [if_neg hout] at h
    rw [if_neg hout, if_neg hout]
    simp only [RaftLog.truncateFromWith, answers, h (Nat.lt_succ_self _)]

theorem truncateLogWith_le (call : WalCalls) (s : Storing) (i : ℕ) :
    s.1 ≤ (truncateLogWith call s i).1 := by
  rw [truncateLogWith]
  split
  · exact Nat.le_refl _
  · exact Nat.le_succ _

theorem storeEntryWith_answers (call : WalCalls) (s : Storing) (e : LogEntry) :
    s.1 ≤ (storeEntryWith call s e).1 ∧
      ∃ o : ℕ → Except WalError ℕ × Wal,
        ∀ o', (∀ k, s.1 ≤ k → k < (storeEntryWith call s e).1 → o' k = o k) →
        storeEntryWith (answers o') s e = storeEntryWith call s e := by
  simp only [storeEntryWith]
  cases s.2.log.termAt e.index with
  | none =>
    refine ⟨Nat.le_succ _, fun _ => call s.1 s.2.log.wal (encodeAppend
      ⟨e.term, s.2.log.lastIndex + 1, e.data⟩), fun o' ho => ?_⟩
    exact appendLogWith_answers (ho s.1 (Nat.le_refl _) (Nat.lt_succ_self _))
  | some t =>
    dsimp only
    by_cases ht : t = e.term
    · rw [if_pos ht]
      refine ⟨Nat.le_refl _, fun _ => (.ok 0, s.2.log.wal), fun o' _ => ?_⟩
      rw [if_pos ht]
    · rw [if_neg ht]
      have hle := truncateLogWith_le call s e.index
      -- the truncation may write no record, then the append is the first
      obtain ⟨u, hu⟩ : ∃ u, u = truncateLogWith call s e.index := ⟨_, rfl⟩
      rw [← hu] at hle ⊢
      refine ⟨Nat.le_trans hle (Nat.le_succ _), fun k =>
        if k = u.1 then call u.1 u.2.log.wal (encodeAppend
          ⟨e.term, u.2.log.lastIndex + 1, e.data⟩)
        else call s.1 s.2.log.wal (encodeTruncate e.index), fun o' ho => ?_⟩
      rw [if_neg ht]
      have hcut : truncateLogWith (answers o') s e.index = u := by
        rw [hu]
        apply truncateLogWith_answers
        intro hlt
        rw [← hu] at hlt
        exact (ho s.1 (Nat.le_refl _) (Nat.lt_succ_of_lt hlt)).trans
          (if_neg (Nat.ne_of_lt hlt))
      rw [hcut]
      exact appendLogWith_answers ((ho u.1 hle (Nat.lt_succ_self _)).trans (if_pos rfl))

/-- Whatever the WAL does, its answers alone make the loop end as it does. -/
theorem storeEntriesWith_answers (call : WalCalls) (s : Storing) (entries : List LogEntry) :
    ∃ o : ℕ → Except WalError ℕ × Wal, ∀ o', (∀ k, s.1 ≤ k → o' k = o k) →
      storeEntriesWith (answers o') s entries = storeEntriesWith call s entries := by
  induction entries generalizing s with
  | nil => exact ⟨fun _ => (.ok 0, s.2.log.wal), fun _ _ => rfl⟩
  | cons e entries ih =>
    obtain ⟨hle, o₁, ho₁⟩ := storeEntryWith_answers call s e
    obtain ⟨o₂, ho₂⟩ := ih (storeEntryWith call s e)
    refine ⟨fun k => if k < (storeEntryWith call s e).1 then o₁ k else o₂ k, fun o' ho => ?_⟩
    rw [storeEntriesWith, List.foldl_cons, ← storeEntriesWith]
    have hfirst : storeEntryWith (answers o') s e = storeEntryWith call s e := by
      apply ho₁
      intro k hk hlt
      exact (ho k hk).trans (if_pos hlt)
    rw [hfirst]
    apply ho₂
    intro k hk
    exact (ho k (Nat.le_trans hle hk)).trans (if_neg (Nat.not_lt.mpr hk))

theorem onAppendEntriesWith_answers (call : WalCalls) (n : Node) (req : AppendEntriesRequest) :
    ∃ o, Node.onAppendEntriesWith (answers o) n req = Node.onAppendEntriesWith call n req := by
  obtain ⟨o, ho⟩ := storeEntriesWith_answers call (0, n.acceptLeader req.term req.leaderId)
    req.entries
  refine ⟨o, ?_⟩
  rw [Node.onAppendEntriesWith, Node.onAppendEntriesWith]
  simp only [ho o (fun _ _ => rfl)]

/-- A success reply comes from the end of the loop. -/
theorem onAppendEntriesWith_success {call : WalCalls} {n : Node} {req : AppendEntriesRequest}
    (h : (Node.onAppendEntriesWith call n req).1.success = true) :
    (Node.onAppendEntriesWith call n req).2.log =
        (storeEntriesWith call (0, n.acceptLeader req.term req.leaderId) req.entries).2.log ∧
      (0 < req.prevLogIndex → n.log.termAt req.prevLogIndex = some req.prevLogTerm) := by
  rw [Node.onAppendEntriesWith] at h ⊢
  by_cases hstale : req.term < n.ps.currentTerm
  · rw [if_pos hstale] at h
    cases h
  · rw [if_neg hstale] at h ⊢
    dsimp only at h ⊢
    cases hcheck : (n.acceptLeader req.term req.leaderId).checkPrevious req with
    | some rejection =>
      rw [hcheck] at h
      rw [(checkPrevious_rejects hcheck).1] at h
      cases h
    | none =>
      have hprev := (checkPrevious_iff _ _).mp hcheck
      rw [(acceptLeader_log n req.term req.leaderId).1] at hprev
      refine ⟨?_, hprev⟩
      dsimp only
      split <;> rfl

theorem onAppendEntriesWith_view {o : ℕ → Except WalError ℕ × Wal} {n : Node}
    {req : AppendEntriesRequest}
    (hsuccess : (Node.onAppendEntriesWith (answers o) n req).1.success = true) :
    (Node.onAppendEntriesWith (answers o) n req).2.log.toLogView =
      (storeAllUnder (written o) (0, n.log.toLogView) req.entries).2 := by
  have h := congrArg Prod.snd (view_storeEntriesWith o
    (0, n.acceptLeader req.term req.leaderId) req.entries)
  rw [view, view, (acceptLeader_log n req.term req.leaderId).1] at h
  rw [(onAppendEntriesWith_success hsuccess).1]
  exact h

/-- A follower that replies success holds the entries of the request exactly when the WAL
takes the records that they need and the entries it skips are those of its log. -/
theorem success_holds_entries {o : ℕ → Except WalError ℕ × Wal} {n : Node}
    {req : AppendEntriesRequest}
    (hsuccess : (Node.onAppendEntriesWith (answers o) n req).1.success = true)
    (hes : Consecutive (req.prevLogIndex + 1) req.entries)
    (habove : ∀ e ∈ req.entries, n.log.snapshotIndex < e.index) :
    Held n.log.toLogView (Node.onAppendEntriesWith (answers o) n req).2.log.toLogView
        req.entries ↔
      (∀ k < records n.log.toLogView req.entries, written o k = true) ∧
        ∀ e ∈ skipped n.log.toLogView req.entries,
          entryAt n.log.toLogView e.index = some e := by
  have hprev := (onAppendEntriesWith_success hsuccess).2
  rw [onAppendEntriesWith_view hsuccess]
  cases hentries : req.entries with
  | nil =>
    refine iff_of_true ⟨by simp, fun x hx => Or.inl hx⟩ ⟨?_, by simp [skipped]⟩
    intro k hk
    exact absurd hk (Nat.not_lt_zero k)
  | cons e entries =>
    rw [hentries] at hes habove
    have hindex := hes.head
    have hlow := habove e (by simp)
    have hlast : req.prevLogIndex ≤ n.log.lastIndex := by
      rcases Nat.eq_zero_or_pos req.prevLogIndex with hzero | hpos
      · omega
      · exact termAt_le_last (hprev hpos)
    have hiff := @held_iff (written o) 0 n.log.toLogView _ _ hes (by omega) (by omega)
    simpa only [Nat.zero_add] using hiff

/-- A request for the start of the log is not refused. -/
theorem onAppendEntriesWith_first {n : Node} (req : AppendEntriesRequest)
    (hterm : n.ps.currentTerm ≤ req.term) (hprev : req.prevLogIndex = 0) (call : WalCalls) :
    (Node.onAppendEntriesWith call n req).1.success = true := by
  have hcheck : (n.acceptLeader req.term req.leaderId).checkPrevious req = none := by
    rw [Node.checkPrevious, hprev, if_neg (Nat.lt_irrefl 0)]
  rw [Node.onAppendEntriesWith, if_neg (Nat.not_lt.mpr hterm)]
  simp only [hcheck]

/-- A node that has the first of two entries from an earlier request, and whose WAL takes the
record of the second. -/
theorem success_holds_entries_repeated :
    ∃ n m o, @Node.start ieee "n2" ["n1"] none Dir.empty none = .ok n ∧
      m = (@Node.onAppendEntries ieee n ⟨1, "n1", 0, 0, [⟨1, 1, [7]⟩], 0⟩).2 ∧
      o = (fun _ => @Wal.append ieee m.log.wal (encodeAppend ⟨1, 2, [8]⟩)) ∧
      skipped m.log.toLogView [⟨1, 1, [7]⟩, ⟨1, 2, [8]⟩] = [⟨1, 1, [7]⟩] ∧
      (Node.onAppendEntriesWith (answers o) m
        ⟨1, "n1", 0, 0, [⟨1, 1, [7]⟩, ⟨1, 2, [8]⟩], 0⟩).1.success = true ∧
      Held m.log.toLogView (Node.onAppendEntriesWith (answers o) m
        ⟨1, "n1", 0, 0, [⟨1, 1, [7]⟩, ⟨1, 2, [8]⟩], 0⟩).2.log.toLogView
        [⟨1, 1, [7]⟩, ⟨1, 2, [8]⟩] := by
  let _ : Crc32 := ieee
  obtain ⟨n, log, hstart, hn, hview, hhealthy, hcfg, hseq⟩ := start_fresh "n2" ["n1"]
  set req : AppendEntriesRequest := ⟨1, "n1", 0, 0, [⟨1, 1, [7]⟩], 0⟩ with hreq
  have hterm : n.ps.currentTerm ≤ 1 := by rw [hn.ps]; decide
  have htakes : Takes n (req.entries ++ [⟨1, 2, [8]⟩]) := by
    refine ⟨⟨_, hn.log ▸ hhealthy⟩, hn.log ▸ hcfg, ?_, by simp [hreq, fitsSegment_byte]⟩
    rw [hn.log, hseq]
    decide
  have hpass : Passes n req := ⟨hterm, fun h => absurd h (lt_irrefl 0)⟩
  have hstored := (onAppendEntries_view htakes.front).2.1 hpass
  have hafter := onAppendEntries_takes htakes
  have hps := onAppendEntries_ps n req
  set m := (n.onAppendEntries req).2 with hm
  have hlog : m.log.toLogView = ⟨[⟨1, 1, [7]⟩], 0, 0⟩ := by
    rw [hstored, show n.log.toLogView = LogView.empty from hn.log ▸ hview]
    rfl
  have hterm' : m.ps.currentTerm ≤ 1 := by
    rw [hps]
    split
    · exact le_rfl
    · exact hterm
  obtain ⟨c, hc⟩ := hafter.healthy
  have hroom := hafter.room
  obtain ⟨w, happ, _⟩ := append_accepted hc.stores (encodeAppend ⟨1, 2, [8]⟩)
    (by rw [encodeAppend_length]; decide) (by rw [List.length_singleton] at hroom; omega)
    (by rw [hafter.config, encodeAppend_length]; exact fitsSegment_byte 8)
  have hsuccess := onAppendEntriesWith_first ⟨1, "n1", 0, 0, [⟨1, 1, [7]⟩, ⟨1, 2, [8]⟩], 0⟩ hterm'
    rfl (answers fun _ => m.log.wal.append (encodeAppend ⟨1, 2, [8]⟩))
  have hskipped : skipped m.log.toLogView [⟨1, 1, [7]⟩, ⟨1, 2, [8]⟩] = [⟨1, 1, [7]⟩] := by
    rw [hlog]
    decide
  have hes : Consecutive 1 [⟨1, 1, [7]⟩, ⟨1, 2, [8]⟩] :=
    (LogView.Contiguous.empty.push 1 [7]).push 1 [8]
  refine ⟨n, m, _, hstart, rfl, rfl, hskipped, hsuccess,
    (success_holds_entries hsuccess hes ?_).mpr ⟨?_, ?_⟩⟩
  · rw [hlog]
    simp
  · intro k _
    rw [written, happ]
    rfl
  · rw [hskipped, hlog]
    simp [entryAt]

/-- The record of the first of two entries is not written: the second is stored at the index
of the first, and the reply is a success. -/
theorem success_misplaces_entry :
    ∃ n o, @Node.start ieee "n2" ["n1"] none Dir.empty none = .ok n ∧
      o = (fun k => if k = 0 then (.error (.io .other), n.log.wal)
        else @Wal.append ieee n.log.wal (encodeAppend ⟨1, 1, [8]⟩)) ∧
      (Node.onAppendEntriesWith (answers o) n
        ⟨1, "n1", 0, 0, [⟨1, 1, [7]⟩, ⟨1, 2, [8]⟩], 0⟩).1.success = true ∧
      (Node.onAppendEntriesWith (answers o) n
        ⟨1, "n1", 0, 0, [⟨1, 1, [7]⟩, ⟨1, 2, [8]⟩], 0⟩).2.log.entries = [⟨1, 1, [8]⟩] ∧
      ¬ Held n.log.toLogView (Node.onAppendEntriesWith (answers o) n
        ⟨1, "n1", 0, 0, [⟨1, 1, [7]⟩, ⟨1, 2, [8]⟩], 0⟩).2.log.toLogView
        [⟨1, 1, [7]⟩, ⟨1, 2, [8]⟩] := by
  let _ : Crc32 := ieee
  obtain ⟨n, log, hstart, hn, hview, hhealthy, hcfg, hseq⟩ := start_fresh "n2" ["n1"]
  have hlog : n.log.toLogView = LogView.empty := hn.log ▸ hview
  have hterm : n.ps.currentTerm ≤ 1 := by rw [hn.ps]; decide
  obtain ⟨w, happ, _⟩ := append_accepted hhealthy.stores (encodeAppend ⟨1, 1, [8]⟩)
    (by rw [encodeAppend_length]; decide) (by rw [hseq]; decide)
    (by rw [hcfg, encodeAppend_length]; decide)
  rw [← hn.log] at happ
  let o : ℕ → Except WalError ℕ × Wal := fun k => if k = 0 then (.error (.io .other), n.log.wal)
    else n.log.wal.append (encodeAppend ⟨1, 1, [8]⟩)
  have hsuccess := onAppendEntriesWith_first
    ⟨1, "n1", 0, 0, [⟨1, 1, [7]⟩, ⟨1, 2, [8]⟩], 0⟩ hterm rfl (answers o)
  have hw₀ : written o 0 = false := rfl
  have hw₁ : written o 1 = true := by
    rw [written, show o 1 = n.log.wal.append (encodeAppend ⟨1, 1, [8]⟩) from rfl, happ]
    rfl
  have hentries : (Node.onAppendEntriesWith (answers o) n
      ⟨1, "n1", 0, 0, [⟨1, 1, [7]⟩, ⟨1, 2, [8]⟩], 0⟩).2.log.toLogView =
        LogView.empty.push 1 [8] := by
    rw [onAppendEntriesWith_view hsuccess, hlog]
    simp [storeUnder, pushUnder, hw₀, hw₁, LogView.termAt, LogView.empty]
  refine ⟨n, o, hstart, rfl, hsuccess, ?_, ?_⟩
  · exact congrArg LogView.entries hentries
  · intro h
    have hheld := h.held ⟨1, 1, [7]⟩ (by simp)
    rw [hentries] at hheld
    revert hheld
    decide

end RaftNodeFailedAppends
