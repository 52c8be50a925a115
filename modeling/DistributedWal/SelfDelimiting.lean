import Mathlib.Data.List.Basic
import Mathlib.Data.Set.Function

/-! # Self-delimiting encodings and cut streams

An encoding is self-delimiting for a reader that finds a value at the front of any
longer input. Such an encoding is injective, and no encoding begins another one. A
stream that is cut before its end is cut inside one of its parts.
-/
namespace SelfDelimiting

variable {α β : Type*}

/-- `read` finds at the front of every input the value that `enc` wrote there. -/
def ReadsFront (read : List α → Option β) (enc : β → List α) (ok : β → Prop) : Prop :=
  ∀ b, ok b → ∀ rest, read (enc b ++ rest) = some b

/-- The encoding of one value never begins the encoding of another. -/
def PrefixFree (enc : β → List α) (ok : β → Prop) : Prop :=
  ∀ a b, ok a → ok b → enc a <+: enc b → a = b

section

variable {read : List α → Option β} {enc : β → List α} {ok : β → Prop}

theorem ReadsFront.exact (h : ReadsFront read enc ok) {b : β} (hb : ok b) :
    read (enc b) = some b := by
  have hread := h b hb []
  rwa [List.append_nil] at hread

theorem ReadsFront.prefixFree (h : ReadsFront read enc ok) : PrefixFree enc ok := by
  rintro a b ha hb ⟨rest, hrest⟩
  have hread := h a ha rest
  rw [hrest, h.exact hb] at hread
  exact (Option.some.inj hread).symm

theorem PrefixFree.injOn (h : PrefixFree enc ok) : Set.InjOn enc {b | ok b} := by
  intro a ha b hb heq
  exact h a b ha hb (heq ▸ List.prefix_rfl)

end

/-- A strict prefix. -/
def Cut (p l : List α) : Prop := p <+: l ∧ p ≠ l

section

variable {p l front back : List α}

theorem Cut.length_lt (h : Cut p l) : p.length < l.length := by
  obtain ⟨hpre, hne⟩ := h
  rcases Nat.lt_or_ge p.length l.length with hlt | hge
  · exact hlt
  · exact absurd (hpre.eq_of_length_le hge) hne

theorem Cut.not_nil : ¬ Cut p ([] : List α) := by
  intro h
  exact Nat.not_lt_zero _ h.length_lt

/-- A cut falls inside the front part or leaves it whole. -/
theorem Cut.of_append (h : Cut p (front ++ back)) :
    Cut p front ∨ ∃ q, p = front ++ q ∧ Cut q back := by
  obtain ⟨⟨rest, hrest⟩, hne⟩ := h
  rcases List.append_eq_append_iff.mp hrest with ⟨q, hq, _⟩ | ⟨q, hq, hback⟩
  · by_cases heq : p = front
    · refine Or.inr ⟨[], by rw [heq, List.append_nil], List.nil_prefix, ?_⟩
      intro hnil
      exact hne (by rw [heq, ← hnil, List.append_nil])
    · exact Or.inl ⟨⟨q, hq.symm⟩, heq⟩
  · refine Or.inr ⟨q, hq, ⟨rest, hback.symm⟩, ?_⟩
    intro heq
    exact hne (by rw [hq, heq])

/-- A cut that reaches past the front part. -/
theorem Cut.past_front (h : Cut p (front ++ back)) (hlen : front.length ≤ p.length) :
    ∃ q, p = front ++ q ∧ Cut q back := by
  rcases h.of_append with hfront | hback
  · exact absurd hfront.length_lt (Nat.not_lt.mpr hlen)
  · exact hback

end

end SelfDelimiting
