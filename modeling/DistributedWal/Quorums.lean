import Mathlib.Data.Finset.Card
import Mathlib.Data.Finset.Lattice.Lemmas

/-! # Quorums and votes

Two quorums share a member, so two candidates with a quorum of votes share a voter.
-/
namespace Quorums

structure QuorumSystem (N : Type*) where
  IsQuorum : Set N → Prop
  meets : ∀ {Q Q' : Set N}, IsQuorum Q → IsQuorum Q' → ∃ n, n ∈ Q ∧ n ∈ Q'

variable {N : Type*}

/-- Whoever has a quorum of votes is the only one, when each voter votes once. -/
theorem QuorumSystem.one_winner (q : QuorumSystem N) {votes : N → N → Prop}
    (hone : ∀ v a b, votes v a → votes v b → a = b) {a b : N}
    (ha : q.IsQuorum {v | votes v a}) (hb : q.IsQuorum {v | votes v b}) : a = b := by
  obtain ⟨v, hva, hvb⟩ := q.meets ha hb
  exact hone v a b hva hvb

/-- Two parts that cover a third count at least as many members. -/
theorem length_filter_le_add {a t k : N → Bool} {ps : List N}
    (h : ∀ p ∈ ps, a p = true → t p = true ∨ k p = true) :
    (ps.filter a).length ≤ (ps.filter t).length + (ps.filter k).length := by
  induction ps with
  | nil => exact Nat.zero_le _
  | cons p ps ih =>
    have hrest := ih (fun q hq => h q (List.mem_cons_of_mem _ hq))
    have hp := h p (List.mem_cons_self ..)
    simp only [List.filter_cons]
    cases ha : a p <;> cases ht : t p <;> cases hk : k p <;>
      simp_all <;> omega

/-- Two disjoint parts of a third count at most as many. -/
theorem length_filter_add_le {a t k : N → Bool} {ps : List N}
    (ht : ∀ p ∈ ps, t p = true → a p = true) (hk : ∀ p ∈ ps, k p = true → a p = true)
    (hdisjoint : ∀ p ∈ ps, ¬ (t p = true ∧ k p = true)) :
    (ps.filter t).length + (ps.filter k).length ≤ (ps.filter a).length := by
  induction ps with
  | nil => exact Nat.le_refl _
  | cons p ps ih =>
    have hrest := ih (fun q hq => ht q (List.mem_cons_of_mem _ hq))
      (fun q hq => hk q (List.mem_cons_of_mem _ hq))
      (fun q hq => hdisjoint q (List.mem_cons_of_mem _ hq))
    have htp := ht p (List.mem_cons_self ..)
    have hkp := hk p (List.mem_cons_self ..)
    have hp := hdisjoint p (List.mem_cons_self ..)
    simp only [List.filter_cons]
    cases ha : a p <;> cases ht' : t p <;> cases hk' : k p <;>
      simp_all <;> omega

variable [DecidableEq N]

/-- The sets with more than half of the members. -/
def majority (members : List N) (hnodup : members.Nodup) : QuorumSystem N where
  IsQuorum Q := ∃ voters : Finset N, voters ⊆ members.toFinset ∧
    members.length / 2 + 1 ≤ voters.card ∧ ∀ v ∈ voters, v ∈ Q
  meets := by
    rintro Q Q' ⟨voters, hsub, hcard, hQ⟩ ⟨voters', hsub', hcard', hQ'⟩
    have hsize : members.toFinset.card = members.length :=
      List.toFinset_card_of_nodup hnodup
    have hmore : members.toFinset.card < voters.card + voters'.card := by omega
    obtain ⟨n, hn⟩ := Finset.inter_nonempty_of_card_lt_card_add_card hsub hsub' hmore
    rw [Finset.mem_inter] at hn
    exact ⟨n, hQ n hn.1, hQ' n hn.2⟩

theorem majority_of_list {members voters : List N} {hnodup : members.Nodup} {Q : Set N}
    (hvoters : voters.Nodup) (hmem : ∀ v ∈ voters, v ∈ members)
    (hlen : members.length / 2 + 1 ≤ voters.length) (hQ : ∀ v ∈ voters, v ∈ Q) :
    (majority members hnodup).IsQuorum Q := by
  refine ⟨voters.toFinset, ?_, ?_, ?_⟩
  · intro v hv
    exact List.mem_toFinset.mpr (hmem v (List.mem_toFinset.mp hv))
  · rw [List.toFinset_card_of_nodup hvoters]
    exact hlen
  · intro v hv
    exact hQ v (List.mem_toFinset.mp hv)

theorem majority_mono {members : List N} {hnodup : members.Nodup} {Q Q' : Set N}
    (h : (majority members hnodup).IsQuorum Q) (hsub : ∀ v ∈ Q, v ∈ Q') :
    (majority members hnodup).IsQuorum Q' := by
  obtain ⟨voters, hmem, hcard, hQ⟩ := h
  exact ⟨voters, hmem, hcard, fun v hv => hsub v (hQ v hv)⟩

end Quorums
