import DistributedWal.ReplicatedLog
import DistributedWal.LogMatching

/-! # The log with its compacted entries

Proofs speak of the full log, from index 1 on, as if nothing had ever been compacted. The
view that a node keeps answers every question about an index from its snapshot point on
as the full log does.
-/
namespace FullLog

open LittleEndianCodec ReplicatedLog LogMatching

def Numbered (l : List LogEntry) : Prop := ∀ k e, l[k]? = some e → e.index = k + 1

def lastTermOf (l : List LogEntry) : ℕ := (l.getLast?.map LogEntry.term).getD 0

structure Represents (v : LogView) (full : List LogEntry) : Prop where
  numbered : Numbered full
  point : v.snapshotIndex ≤ full.length
  entries : v.entries = full.drop v.snapshotIndex
  pointTerm : v.snapshotTerm = lastTermOf (full.take v.snapshotIndex)

theorem Numbered.of_prefix {l l' : List LogEntry} (h : Numbered l) (hp : l' <+: l) :
    Numbered l' := by
  intro k e he
  exact h k e (prefix_getElem? hp he)

theorem Numbered.push {l : List LogEntry} (h : Numbered l) (term : ℕ) (data : Bytes) :
    Numbered (l ++ [⟨term, l.length + 1, data⟩]) := by
  intro k e he
  rcases Nat.lt_or_ge k l.length with hlt | hge
  · rw [List.getElem?_append_left hlt] at he
    exact h k e he
  · rw [List.getElem?_append_right hge, List.getElem?_singleton] at he
    split at he
    · cases he
      simp only
      omega
    · cases he

@[simp] theorem lastTermOf_nil : lastTermOf [] = 0 := rfl

@[simp] theorem lastTermOf_concat (l : List LogEntry) (e : LogEntry) :
    lastTermOf (l ++ [e]) = e.term := by
  simp [lastTermOf]

theorem lastTermOf_take {l : List LogEntry} {i : ℕ} {e : LogEntry}
    (h : l[i]? = some e) : lastTermOf (l.take (i + 1)) = e.term := by
  rw [List.take_add_one, h]
  exact lastTermOf_concat _ e

theorem Represents.empty : Represents LogView.empty [] :=
  ⟨fun k e h => by simp at h, le_rfl, rfl, rfl⟩

variable {v : LogView} {full : List LogEntry}

theorem Represents.lastIndex (h : Represents v full) : v.lastIndex = full.length := by
  have := h.point
  rw [LogView.lastIndex, h.entries, List.length_drop]
  omega

theorem Represents.contiguous (h : Represents v full) : v.Contiguous := by
  intro k e he
  rw [h.entries, List.getElem?_drop] at he
  have := h.numbered _ e he
  omega

theorem Represents.lastTerm (h : Represents v full) : v.lastTerm = lastTermOf full := by
  have hsplit := List.take_append_drop v.snapshotIndex full
  rw [LogView.lastTerm, h.entries]
  by_cases hempty : full.drop v.snapshotIndex = []
  · rw [hempty, List.append_nil] at hsplit
    rw [hempty, h.pointTerm, hsplit]
    rfl
  · obtain ⟨l, e, hl⟩ := (List.eq_nil_or_concat' _).resolve_left hempty
    rw [hl] at hsplit ⊢
    rw [← hsplit, ← List.append_assoc, lastTermOf_concat, List.getLast?_concat]

/-- From the snapshot point on, the view knows the terms of the full log. -/
theorem Represents.termAt (h : Represents v full) {i : ℕ} (hi : 0 < i)
    (hpoint : v.snapshotIndex ≤ i) : v.termAt i = full[i - 1]?.map LogEntry.term := by
  rw [LogView.termAt, if_neg (Nat.ne_of_gt hi)]
  by_cases heq : i = v.snapshotIndex
  · obtain ⟨e, he⟩ : ∃ e, full[i - 1]? = some e := by
      have := h.point
      exact ⟨_, List.getElem?_eq_getElem (by omega)⟩
    have hlast := lastTermOf_take he
    rw [Nat.sub_add_cancel hi, heq, ← h.pointTerm] at hlast
    rw [if_pos heq, he, hlast]
    rfl
  · have hk : v.snapshotIndex + (i - v.snapshotIndex - 1) = i - 1 := by omega
    rw [if_neg heq, if_neg (by omega), h.entries, List.getElem?_drop, hk]

theorem termAt_some_bounds {i t : ℕ} (h : v.termAt i = some t) :
    0 < i ∧ v.snapshotIndex ≤ i := by
  rw [LogView.termAt] at h
  split at h
  · cases h
  · split at h
    · omega
    · split at h
      · cases h
      · omega

theorem Represents.termAt_some (h : Represents v full) {i t : ℕ}
    (ht : v.termAt i = some t) :
    0 < i ∧ v.snapshotIndex ≤ i ∧ ∃ e, full[i - 1]? = some e ∧ e.term = t := by
  obtain ⟨hpos, hpoint⟩ := termAt_some_bounds ht
  rw [h.termAt hpos hpoint] at ht
  obtain ⟨e, he, hterm⟩ := Option.map_eq_some_iff.mp ht
  exact ⟨hpos, hpoint, e, he, hterm⟩

/-- What lies below the snapshot point does not depend on the entries. -/
theorem termAt_hidden {v' : LogView} (hindex : v'.snapshotIndex = v.snapshotIndex)
    (hterm : v'.snapshotTerm = v.snapshotTerm) {i : ℕ} (hi : i ≤ v.snapshotIndex) :
    v'.termAt i = v.termAt i := by
  rw [LogView.termAt, LogView.termAt, hindex, hterm]
  by_cases hz : i = 0
  · rw [if_pos hz, if_pos hz]
  rw [if_neg hz, if_neg hz]
  by_cases heq : i = v.snapshotIndex
  · rw [if_pos heq, if_pos heq]
  rw [if_neg heq, if_neg heq, if_pos (by omega), if_pos (by omega)]

theorem Represents.entriesFrom (h : Represents v full) (k : ℕ) :
    v.entriesFrom k = full.drop (max (k - 1) v.snapshotIndex) := by
  have hlast := h.lastIndex
  rw [LogView.entriesFrom]
  split
  · rename_i hout
    symm
    apply List.drop_eq_nil_of_le
    omega
  · rw [h.entries, List.drop_drop]
    congr 1
    omega

theorem Numbered.filter_le {l : List LogEntry} (h : Numbered l) (s i : ℕ) :
    (l.drop s).filter (fun e => e.index ≤ i) = (l.take i).drop s := by
  have hsplit := List.take_append_drop (i - s) (l.drop s)
  rw [List.drop_take]
  conv_lhs => rw [← hsplit]
  rw [List.filter_append]
  have hfront : ((l.drop s).take (i - s)).filter (fun e => e.index ≤ i) =
      (l.drop s).take (i - s) := by
    rw [List.filter_eq_self]
    intro e he
    obtain ⟨k, hk⟩ := List.mem_iff_getElem?.mp he
    rw [List.getElem?_take] at hk
    split at hk
    · rw [List.getElem?_drop] at hk
      have := h _ e hk
      simp only [decide_eq_true_eq]
      omega
    · cases hk
  have hback : ((l.drop s).drop (i - s)).filter (fun e => e.index ≤ i) = [] := by
    rw [List.filter_eq_nil_iff]
    intro e he
    obtain ⟨k, hk⟩ := List.mem_iff_getElem?.mp he
    rw [List.drop_drop, List.getElem?_drop] at hk
    have := h _ e hk
    simp only [decide_eq_true_eq]
    omega
  rw [hfront, hback, List.append_nil]

/-- The retained entries up to an index. -/
theorem Represents.retained (h : Represents v full) (i : ℕ) :
    (v.entriesFrom (v.snapshotIndex + 1)).filter (fun e => e.index ≤ i) =
      (full.take i).drop v.snapshotIndex := by
  rw [h.entriesFrom, Nat.add_sub_cancel, Nat.max_self]
  exact h.numbered.filter_le _ i

/-- The operations on the view, seen on the full log. -/
theorem Represents.push (h : Represents v full) (term : ℕ) (data : Bytes) :
    Represents (v.push term data) (full ++ [⟨term, full.length + 1, data⟩]) := by
  have hp := h.point
  refine ⟨h.numbered.push term data, ?_, ?_, ?_⟩
  · rw [List.length_append]
    exact Nat.le_add_right_of_le hp
  · rw [LogView.push, h.lastIndex, List.drop_append_of_le_length hp, h.entries]
  · rw [LogView.push, List.take_append_of_le_length hp]
    exact h.pointTerm

theorem Represents.cut (h : Represents v full) {i : ℕ} (hi : v.snapshotIndex < i) :
    Represents (v.cut i) (full.take (i - 1)) := by
  have hp := h.point
  have hle : v.snapshotIndex ≤ i - 1 := by omega
  refine ⟨h.numbered.of_prefix (List.take_prefix _ _), ?_, ?_, ?_⟩
  · rw [List.length_take]
    exact Nat.le_min.mpr ⟨hle, hp⟩
  · simp only [LogView.cut]
    rw [h.entries, List.drop_take]
    congr 1
    omega
  · simp only [LogView.cut]
    rw [h.pointTerm, List.take_take, Nat.min_eq_left hle]

/-- The snapshot point moves along the log. -/
theorem Represents.snapshot (h : Represents v full) {i : ℕ} {e : LogEntry}
    (hi : v.snapshotIndex < i) (he : full[i - 1]? = some e) :
    Represents (v.replaySnapshot i e.term) full := by
  have hlt := (List.getElem?_eq_some_iff.mp he).1
  refine ⟨h.numbered, ?_, ?_, ?_⟩
  · simp only [LogView.replaySnapshot]
    omega
  · simp only [LogView.replaySnapshot]
    rw [h.contiguous.filter_above (Nat.le_of_lt hi), h.entries,
      List.drop_drop]
    congr 1
    omega
  · have hlast := lastTermOf_take he
    rw [Nat.sub_add_cancel (by omega)] at hlast
    exact hlast.symm

/-- The snapshot point moves past the end of the log: only the snapshot is left. -/
theorem Represents.replaced (h : Represents v full) {p : List LogEntry} {i : ℕ}
    (hp : Numbered p) (hlen : p.length = i) (hi : v.snapshotIndex < i)
    (hend : v.lastIndex ≤ i) : Represents (v.replaySnapshot i (lastTermOf p)) p := by
  refine ⟨hp, ?_, ?_, ?_⟩
  · exact Nat.le_of_eq hlen.symm
  · have hdrop : p.drop i = [] := List.drop_eq_nil_of_le (Nat.le_of_eq hlen)
    have hfilter : v.entries.filter (fun e => e.index > i) = [] := by
      rw [h.contiguous.filter_above (Nat.le_of_lt hi)]
      apply List.drop_eq_nil_of_le
      rw [LogView.lastIndex] at hend
      omega
    rw [LogView.replaySnapshot]
    dsimp only
    rw [hdrop, hfilter]
  · rw [LogView.replaySnapshot]
    dsimp only
    rw [List.take_of_length_le (Nat.le_of_eq hlen)]

/-- The snapshot stands for the log `p`. -/
structure StandsFor (i t : ℕ) (p : List LogEntry) : Prop where
  numbered : Numbered p
  length : p.length = i
  term : lastTermOf p = t
  index : i < 2 ^ 64
  bound : t < 2 ^ 64

theorem StandsFor.last {i t : ℕ} {p : List LogEntry} (h : StandsFor i t p) (hi : 0 < i) :
    ∃ e, p[i - 1]? = some e ∧ e.term = t := by
  obtain ⟨e, he⟩ : ∃ e, p[i - 1]? = some e := by
    have := h.length
    exact ⟨_, List.getElem?_eq_getElem (by omega)⟩
  have hlast := lastTermOf_take he
  rw [Nat.sub_add_cancel hi, List.take_of_length_le (Nat.le_of_eq h.length), h.term] at hlast
  exact ⟨e, he, hlast.symm⟩

/-- The snapshot point moves to the end of `p`: the log has `p`, and more only if it had
it before. -/
theorem Represents.install (h : Represents v full) {p : List LogEntry}
    {i t : ℕ} (hp : StandsFor i t p) (hagree : Agree LogEntry.term full p)
    (hi : v.snapshotIndex < i) (htail : v.lastIndex ≤ i ∨ v.termAt i = some t) :
    ∃ full', Represents (v.replaySnapshot i t) full' ∧ Adopts p full full' ∧ p <+: full' := by
  have hpos : 0 < i := Nat.zero_lt_of_lt hi
  obtain ⟨y, hy, hyterm⟩ := hp.last hpos
  have hwhole : p.take (i - 1 + 1) = p := by
    apply List.take_of_length_le
    have := hp.length
    omega
  by_cases hhas : v.termAt i = some t
  · obtain ⟨_, _, x, hx, hterm⟩ := h.termAt_some hhas
    refine ⟨full, hterm ▸ h.snapshot hi hx, .refl, ?_⟩
    have heq := hagree _ x y hx hy (hterm.trans hyterm.symm)
    rw [hwhole] at heq
    rw [← heq]
    exact List.take_prefix _ _
  · have hend := htail.resolve_right hhas
    refine ⟨p, hp.term ▸ h.replaced hp.numbered hp.length hi hend, ?_, List.prefix_refl p⟩
    apply Adopts.whole
    intro hpre
    -- the log has the snapshot's last entry after all
    apply hhas
    rw [h.termAt hpos (Nat.le_of_lt hi), prefix_getElem? hpre hy, ← hyterm]
    rfl

end FullLog
