import Mathlib.Data.List.Infix

/-! # Logs that match their leaders' logs

Entries carry the term in which a leader created them, and `llog t` is the log of the
leader of term `t`, which only grows. A log matches when each of its entries stands in
its leader's log after the same entries; any two such logs agree up to every place where
they have an entry of one term.
-/
namespace LogMatching

variable {E : Type*} (term : E → ℕ)

def Matches (llog : ℕ → List E) (l : List E) : Prop :=
  ∀ k x, l[k]? = some x → l.take (k + 1) <+: llog (term x)

/-- Entries of one term at one place have the same history. -/
def Agree (l₁ l₂ : List E) : Prop :=
  ∀ k x y, l₁[k]? = some x → l₂[k]? = some y → term x = term y →
    l₁.take (k + 1) = l₂.take (k + 1)

/-- `l'` comes from `l` by taking over `p`, perhaps only in part: nothing that the two
share is lost, and a log that has all of `p` stays. -/
def Adopts (p l l' : List E) : Prop :=
  l' = l ∨ ¬ p <+: l ∧ l' <+: p ∧ ∀ q, q <+: l → q <+: p → q <+: l'

variable {term} {llog llog' : ℕ → List E} {l l' l₁ l₂ l₃ p : List E}

theorem prefix_take (h : l₁ <+: l₂) {k : ℕ} (hk : k ≤ l₁.length) :
    l₁.take k = l₂.take k := by
  obtain ⟨rest, rfl⟩ := h
  rw [List.take_append_of_le_length hk]

theorem prefix_getElem? (h : l₁ <+: l₂) {k : ℕ} {x : E} (hx : l₁[k]? = some x) :
    l₂[k]? = some x := by
  obtain ⟨rest, rfl⟩ := h
  rw [List.getElem?_append_left (List.getElem?_eq_some_iff.mp hx).1]
  exact hx

theorem take_eq_of_prefix {k : ℕ} (h : l₁.take k <+: l₂) (hk : k ≤ l₁.length) :
    l₂.take k = l₁.take k := by
  have heq := List.prefix_iff_eq_take.mp h
  rw [List.length_take_of_le hk] at heq
  exact heq.symm

theorem Matches.nil : Matches term llog [] := by
  intro k x hx
  simp at hx

theorem Matches.of_prefix (h : Matches term llog l) (hp : l' <+: l) :
    Matches term llog l' := by
  intro k x hx
  have hlt := (List.getElem?_eq_some_iff.mp hx).1
  rw [prefix_take hp hlt]
  exact h k x (prefix_getElem? hp hx)

theorem Matches.mono (h : Matches term llog l) (hgrow : ∀ t, llog t <+: llog' t) :
    Matches term llog' l := by
  intro k x hx
  exact (h k x hx).trans (hgrow _)

theorem Matches.push {x : E} (h : Matches term llog l) (hx : l ++ [x] <+: llog (term x)) :
    Matches term llog (l ++ [x]) := by
  intro k y hy
  rcases Nat.lt_or_ge k l.length with hlt | hge
  · rw [List.getElem?_append_left hlt] at hy
    rw [List.take_append_of_le_length hlt]
    exact h k y hy
  · have hk : k = l.length := by
      have := (List.getElem?_eq_some_iff.mp hy).1
      rw [List.length_append, List.length_singleton] at this
      omega
    subst hk
    rw [List.getElem?_concat_length] at hy
    cases hy
    rw [List.take_of_length_le (by simp)]
    exact hx

theorem Matches.agree (h₁ : Matches term llog l₁) (h₂ : Matches term llog l₂) :
    Agree term l₁ l₂ := by
  intro k x y hx hy hterm
  have p₁ := h₁ k x hx
  have p₂ := h₂ k y hy
  rw [← hterm] at p₂
  have n₁ := (List.getElem?_eq_some_iff.mp hx).1
  have n₂ := (List.getElem?_eq_some_iff.mp hy).1
  have hlen : (l₁.take (k + 1)).length = (l₂.take (k + 1)).length := by
    rw [List.length_take, List.length_take]
    omega
  exact (List.prefix_of_prefix_length_le p₁ p₂ (Nat.le_of_eq hlen)).eq_of_length hlen

/-- Agreement at a place carries to every place before it. -/
theorem Agree.below (h : Agree term l₁ l₂) {j k : ℕ} {x y : E} (hx : l₁[j]? = some x)
    (hy : l₂[j]? = some y) (hterm : term x = term y) (hk : k ≤ j) : l₁[k]? = l₂[k]? := by
  have heq := congrArg (fun l => l[k]?) (h j x y hx hy hterm)
  simpa only [List.getElem?_take_of_lt (Nat.lt_succ_of_le hk)] using heq

theorem Adopts.refl : Adopts p l l := Or.inl rfl

theorem Adopts.trans (h : Adopts p l l') (k : Adopts p l' l₃) : Adopts p l l₃ := by
  rcases h with rfl | ⟨hnot, hsub, hkeep⟩
  · exact k
  · rcases k with rfl | ⟨_, hsub', hkeep'⟩
    · exact Or.inr ⟨hnot, hsub, hkeep⟩
    · refine Or.inr ⟨hnot, hsub', ?_⟩
      intro q hq hp
      exact hkeep' q (hkeep q hq hp) hp

theorem Adopts.matches (h : Adopts p l l') (hl : Matches term llog l)
    (hp : Matches term llog p) : Matches term llog l' := by
  rcases h with rfl | ⟨_, hsub, _⟩
  · exact hl
  · exact hp.of_prefix hsub

theorem Adopts.forall_mem {P : E → Prop} (h : Adopts p l l') (hl : ∀ x ∈ l, P x)
    (hp : ∀ x ∈ p, P x) : ∀ x ∈ l', P x := by
  rcases h with rfl | ⟨_, hsub, _⟩
  · exact hl
  · exact fun x hx => hp x (hsub.subset hx)

/-- The log loses its entries from a conflict on. -/
theorem Adopts.cut {j : ℕ} {x y : E} (hx : l[j]? = some x) (hy : p[j]? = some y)
    (hne : x ≠ y) : Adopts p l (p.take j) := by
  right
  refine ⟨?_, List.take_prefix j p, ?_⟩
  · intro hp
    have := prefix_getElem? hp hy
    rw [hx] at this
    exact hne (Option.some.inj this)
  · intro q hq hqp
    have hlen : q.length ≤ j := by
      by_contra hlt
      obtain ⟨z, hz⟩ : ∃ z, q[j]? = some z :=
        ⟨_, List.getElem?_eq_getElem (Nat.lt_of_not_le hlt)⟩
      have h₁ := prefix_getElem? hq hz
      have h₂ := prefix_getElem? hqp hz
      rw [hx] at h₁
      rw [hy] at h₂
      exact hne (Option.some.inj (h₁.trans h₂.symm))
    have hpl := (List.getElem?_eq_some_iff.mp hy).1
    apply List.prefix_of_prefix_length_le hqp (List.take_prefix j p)
    rw [List.length_take]
    omega

/-- The log gets the next entry. -/
theorem Adopts.grow {j : ℕ} (hj : j < p.length) :
    Adopts p (p.take j) (p.take (j + 1)) := by
  right
  refine ⟨?_, List.take_prefix _ p, ?_⟩
  · intro hp
    have := hp.length_le
    rw [List.length_take] at this
    omega
  · intro q hq _
    exact hq.trans (List.take_prefix_take_left (by omega))

theorem Adopts.whole (h : ¬ p <+: l) : Adopts p l p :=
  Or.inr ⟨h, List.prefix_refl p, fun _ _ hq => hq⟩

theorem Adopts.agree (h : Adopts p l l') (ha : Agree term l p) : Agree term l' p := by
  rcases h with rfl | ⟨_, hsub, _⟩
  · exact ha
  · intro k x y hx _ _
    exact prefix_take hsub (List.getElem?_eq_some_iff.mp hx).1

/-- What the log shares with any continuation of `p` is kept. -/
theorem Adopts.keeps (h : Adopts p l l') {r q : List E} (hp : p <+: r) (hq : q <+: l)
    (hr : q <+: r) : q <+: l' := by
  rcases h with rfl | ⟨hnot, _, hkeep⟩
  · exact hq
  · rcases Nat.le_total q.length p.length with hle | hle
    · exact hkeep q hq (List.prefix_of_prefix_length_le hr hp hle)
    · exact absurd ((List.prefix_of_prefix_length_le hp hr hle).trans hq) hnot

end LogMatching
