import DistributedWal.LogMatching
import DistributedWal.Quorums

/-! # Leader completeness

What is known of the terms, the votes and the acknowledgements of a replicated log. A log
that has taken in a front part of a leader's log keeps it, unless a leader elected in
between was elected without it. So the log of whoever gets a quorum of votes has every
front part that a quorum of members has taken in.
-/
namespace LeaderCompleteness

open LogMatching Quorums

variable {E N : Type*}

/-- `start t` is the log with which the leader of term `t` was elected, `llog t` what it has
become. `acked v t` is how much of it the member `v` has taken in. -/
structure History (E N : Type*) where
  elected : Set ℕ
  start : ℕ → List E
  llog : ℕ → List E
  current : N → ℕ
  acked : N → ℕ → ℕ

def History.front (H : History E N) (t k : ℕ) : List E := (H.llog t).take k

/-- The log has the front part, or a leader between the two terms was elected without it. -/
def History.Retains (H : History E N) (t k u : ℕ) (l : List E) : Prop :=
  H.front t k <+: l ∨ ∃ w ∈ H.elected, t < w ∧ w < u ∧ ¬ H.front t k <+: H.start w

/-- What the member has taken in before term `u`. -/
def History.Keeps (H : History E N) (v : N) (u : ℕ) (l : List E) : Prop :=
  ∀ t < u, ∀ k ≤ H.acked v t, H.Retains t k u l

variable (term : E → ℕ)

def lastTerm (l : List E) : ℕ := (l.getLast?.map term).getD 0

/-- A vote of `v` in term `u` for a candidate with this last entry. -/
def History.Ballot (H : History E N) (v : N) (u lastT lastI : ℕ) : Prop :=
  u ≤ H.current v ∧ ∃ l, Matches term H.llog l ∧ H.Keeps v u l ∧
    (lastTerm term l < lastT ∨ lastTerm term l = lastT ∧ l.length ≤ lastI)

def History.Voted (H : History E N) (v : N) (u : ℕ) : Prop :=
  H.Ballot term v u (lastTerm term (H.start u)) (H.start u).length

/-- A quorum has the front part, and its last entry is of the leader's own term. -/
structure History.Committed (H : History E N) (q : QuorumSystem N) (t k : ℕ) : Prop where
  pos : 0 < k
  entry : ∃ x, (H.llog t)[k - 1]? = some x ∧ term x = t
  quorum : q.IsQuorum {v | k ≤ H.acked v t}

/-- The log is covered by what is committed in a term up to `u`. -/
def History.CommittedUpTo (H : History E N) (q : QuorumSystem N) (u : ℕ) (l : List E) : Prop :=
  l = [] ∨ ∃ t ≤ u, ∃ k, H.Committed term q t k ∧ l <+: H.front t k

structure History.Lawful (H : History E N) : Prop where
  grown : ∀ t, H.start t <+: H.llog t
  startTerms : ∀ t, ∀ x ∈ H.start t, term x < t
  terms : ∀ t, ∀ x ∈ H.llog t, 0 < term x ∧ term x ≤ t
  matching : ∀ t, Matches term H.llog (H.llog t)
  led : ∀ t, H.llog t ≠ [] → t ∈ H.elected
  stored : ∀ v t, H.acked v t ≤ (H.llog t).length
  future : ∀ v t, H.current v < t → H.acked v t = 0

/-- Every leader has a quorum of votes. -/
def History.Chosen (H : History E N) (q : QuorumSystem N) : Prop :=
  ∀ u ∈ H.elected, q.IsQuorum {v | H.Voted term v u}

variable {term} {H : History E N} {q : QuorumSystem N} {t k u : ℕ} {l : List E}

@[simp] theorem lastTerm_nil : lastTerm term [] = 0 := rfl

theorem exists_last (term : E → ℕ) (h : l ≠ []) :
    ∃ x, l[l.length - 1]? = some x ∧ term x = lastTerm term l ∧ x ∈ l := by
  have hpos := List.length_pos_iff.mpr h
  have hget := List.getElem?_eq_getElem (l := l) (i := l.length - 1) (by omega)
  refine ⟨_, hget, ?_, List.getElem_mem _⟩
  rw [lastTerm, List.getLast?_eq_getElem?, hget]
  rfl

/-- A log that matches is a front part of the log of its last entry's leader. -/
theorem prefix_last (hl : Matches term H.llog l) (hne : l ≠ []) :
    l <+: H.llog (lastTerm term l) := by
  obtain ⟨x, hx, hterm, _⟩ := exists_last term hne
  have hpos := List.length_pos_iff.mpr hne
  have hwhole := hl _ x hx
  rw [Nat.sub_add_cancel hpos, List.take_length, hterm] at hwhole
  exact hwhole

theorem History.Committed.length_front (hc : H.Committed term q t k) :
    (H.front t k).length = k := by
  obtain ⟨x, hx, _⟩ := hc.entry
  have hlt := (List.getElem?_eq_some_iff.mp hx).1
  have hpos := hc.pos
  rw [History.front, List.length_take_of_le (by omega)]

theorem History.Committed.elected (hlaw : H.Lawful term) (hc : H.Committed term q t k) :
    t ∈ H.elected := by
  obtain ⟨x, hx, _⟩ := hc.entry
  apply hlaw.led t
  intro hnil
  rw [hnil] at hx
  simp at hx

/-- The last entry of the committed front part. -/
theorem History.Committed.last (hc : H.Committed term q t k) :
    ∃ x, (H.front t k)[k - 1]? = some x ∧ term x = t := by
  obtain ⟨x, hx, hterm⟩ := hc.entry
  have hpos := hc.pos
  refine ⟨x, ?_, hterm⟩
  rw [History.front, List.getElem?_take_of_lt (by omega)]
  exact hx

/-- A log that is at least as up to date as one with a committed front part has it too, if
the leaders in between have. -/
theorem carry (hlaw : H.Lawful term) (hc : H.Committed term q t k) {vlog : List E}
    (hv : Matches term H.llog vlog) (hfront : H.front t k <+: vlog)
    (hl : Matches term H.llog l) (hbefore : ∀ x ∈ l, term x < u)
    (hdate : lastTerm term vlog < lastTerm term l ∨
      lastTerm term vlog = lastTerm term l ∧ vlog.length ≤ l.length)
    (hearlier : ∀ w ∈ H.elected, t < w → w < u → H.front t k <+: H.start w) :
    H.front t k <+: l := by
  have hk := hc.length_front
  have hkv := hfront.length_le
  have hpos := hc.pos
  have hvne : vlog ≠ [] := List.ne_nil_of_length_pos (by omega)
  have hvlast := prefix_last hv hvne
  obtain ⟨x, hx, hxterm⟩ := hc.last
  -- the terms do not decrease up to the voter's last entry
  have hxin : x ∈ H.llog (lastTerm term vlog) :=
    (hfront.trans hvlast).subset (List.mem_of_getElem? hx)
  have hle : t ≤ lastTerm term vlog := by
    rw [← hxterm]
    exact (hlaw.terms _ x hxin).2
  have hxpos : 0 < t := by
    rw [← hxterm]
    exact (hlaw.terms _ x hxin).1
  have hne : l ≠ [] := by
    intro hnil
    rw [hnil, lastTerm_nil] at hdate
    omega
  have hllast := prefix_last hl hne
  rcases hdate with hlt | ⟨heq, hlen⟩
  · obtain ⟨z, hz, hzterm, hzmem⟩ := exists_last term hne
    have hw : lastTerm term l ∈ H.elected := by
      apply hlaw.led
      intro hnil
      rw [hnil, List.prefix_nil] at hllast
      exact hne hllast
    have hstart := hearlier _ hw (by omega) (hzterm ▸ hbefore z hzmem)
    have hin := hstart.trans (hlaw.grown _)
    rcases Nat.le_total k l.length with hlong | hshort
    · exact List.prefix_of_prefix_length_le hin hllast (by omega)
    · -- a shorter log would end in an entry of the committed part, whose terms are lower
      have hsub := List.prefix_of_prefix_length_le hllast hin (by omega)
      have hzin : z ∈ H.llog t := (List.take_prefix k _).subset (hsub.subset hzmem)
      have := (hlaw.terms t z hzin).2
      omega
  · rw [← heq] at hllast
    exact hfront.trans (List.prefix_of_prefix_length_le hvlast hllast hlen)

/-- Over every history: whoever is elected in a later term has what was committed. -/
theorem completeness (hlaw : H.Lawful term) (hchosen : H.Chosen term q)
    (hc : H.Committed term q t k) (hu : u ∈ H.elected) (htu : t < u) :
    H.front t k <+: H.start u := by
  induction u using Nat.strong_induction_on with
  | _ u ih =>
    obtain ⟨v, hvote, hack⟩ := q.meets (hchosen u hu) hc.quorum
    obtain ⟨_, vlog, hmatch, hkeeps, hdate⟩ := hvote
    have hretains := hkeeps t htu k hack
    have hfront : H.front t k <+: vlog := by
      rcases hretains with hfront | ⟨w, hw, htw, hwu, hnot⟩
      · exact hfront
      · exact absurd (ih w hwu hw htw) hnot
    have hstart : Matches term H.llog (H.start u) :=
      Matches.of_prefix (hlaw.matching u) (hlaw.grown u)
    exact carry hlaw hc hmatch hfront hstart (hlaw.startTerms u) hdate
      (fun w hw htw hwu => ih w hwu hw htw)

/-- What is committed up to a term is in the log of the leader of the term. -/
theorem committed_in_leader (hlaw : H.Lawful term) (hchosen : H.Chosen term q)
    (hl : H.CommittedUpTo term q u l) (hu : u ∈ H.elected) : l <+: H.llog u := by
  rcases hl with rfl | ⟨t, htu, k, hc, hl⟩
  · exact List.nil_prefix
  rcases Nat.lt_or_eq_of_le htu with hlt | rfl
  · exact hl.trans ((completeness hlaw hchosen hc hu hlt).trans (hlaw.grown u))
  · exact hl.trans (List.take_prefix k _)

/-- Two logs of which all is committed are parts of one. -/
theorem committed_comparable (hlaw : H.Lawful term) (hchosen : H.Chosen term q) {l' : List E}
    {u' : ℕ} (hl : H.CommittedUpTo term q u l) (hl' : H.CommittedUpTo term q u' l') :
    ∃ r, l <+: r ∧ l' <+: r := by
  rcases hl with rfl | ⟨t, _, k, hc, hl⟩
  · exact ⟨l', List.nil_prefix, List.prefix_refl l'⟩
  rcases hl' with rfl | ⟨t', _, k', hc', hl'⟩
  · exact ⟨l, List.prefix_refl l, List.nil_prefix⟩
  have hup : H.CommittedUpTo term q t l := Or.inr ⟨t, le_rfl, k, hc, hl⟩
  have hup' : H.CommittedUpTo term q t' l' := Or.inr ⟨t', le_rfl, k', hc', hl'⟩
  rcases Nat.le_total t t' with hle | hle
  · refine ⟨H.llog t', ?_, committed_in_leader hlaw hchosen hup' (hc'.elected hlaw)⟩
    exact committed_in_leader hlaw hchosen (Or.inr ⟨t, hle, k, hc, hl⟩) (hc'.elected hlaw)
  · refine ⟨H.llog t, committed_in_leader hlaw hchosen hup (hc.elected hlaw), ?_⟩
    exact committed_in_leader hlaw hchosen (Or.inr ⟨t', hle, k', hc', hl'⟩) (hc.elected hlaw)

/-- Committed entries at one place are equal. -/
theorem committed_entry (hlaw : H.Lawful term) (hchosen : H.Chosen term q) {l' : List E}
    {u' i : ℕ} {x y : E} (hl : H.CommittedUpTo term q u l) (hl' : H.CommittedUpTo term q u' l')
    (hx : l[i]? = some x) (hy : l'[i]? = some y) : x = y := by
  obtain ⟨r, hr, hr'⟩ := committed_comparable hlaw hchosen hl hl'
  have h₁ := prefix_getElem? hr hx
  have h₂ := prefix_getElem? hr' hy
  rw [h₁] at h₂
  exact Option.some.inj h₂

/-- Of finitely many logs of which all is committed, one has all others as parts. -/
theorem committed_top {α : Type*} {P : α → List E → Prop} (hlaw : H.Lawful term)
    (hchosen : H.Chosen term q) (xs : List α)
    (h : ∀ x ∈ xs, ∃ u l, H.CommittedUpTo term q u l ∧ P x l) :
    ∃ u top, H.CommittedUpTo term q u top ∧ ∀ x ∈ xs, ∃ l, P x l ∧ l <+: top := by
  induction xs with
  | nil => exact ⟨0, [], Or.inl rfl, fun x hx => absurd hx List.not_mem_nil⟩
  | cons x xs ih =>
    obtain ⟨u, top, htop, hall⟩ := ih (fun y hy => h y (List.mem_cons_of_mem x hy))
    obtain ⟨w, l, hl, hx⟩ := h x (List.mem_cons_self ..)
    obtain ⟨r, hr, hr'⟩ := committed_comparable hlaw hchosen htop hl
    rcases List.prefix_or_prefix_of_prefix hr hr' with hle | hle
    · refine ⟨w, l, hl, ?_⟩
      intro y hy
      rcases List.mem_cons.mp hy with rfl | hy
      · exact ⟨l, hx, List.prefix_refl l⟩
      · obtain ⟨m, hm, hpart⟩ := hall y hy
        exact ⟨m, hm, hpart.trans hle⟩
    · refine ⟨u, top, htop, ?_⟩
      intro y hy
      rcases List.mem_cons.mp hy with rfl | hy
      · exact ⟨l, hx, hle⟩
      · exact hall y hy

/-- A member that has taken in a committed front part still has it. -/
theorem committed_kept (hlaw : H.Lawful term) (hchosen : H.Chosen term q) {v : N}
    (hc : H.Committed term q t k) (hack : k ≤ H.acked v t) (htu : t < u)
    (hl : H.Keeps v u l) : H.front t k <+: l := by
  rcases hl t htu k hack with hfront | ⟨w, hw, htw, _, hnot⟩
  · exact hfront
  · exact absurd (completeness hlaw hchosen hc hw htw) hnot

/-- What later histories may change. A member takes nothing more in of a term behind its
current one. -/
structure Grows (H H' : History E N) : Prop where
  elected : ∀ t ∈ H.elected, t ∈ H'.elected
  start : ∀ t ∈ H.elected, H'.start t = H.start t
  llog : ∀ t, H.llog t <+: H'.llog t
  current : ∀ v, H.current v ≤ H'.current v
  acked : ∀ v t, H.acked v t ≤ H'.acked v t
  settled : ∀ v t, t < H.current v → H'.acked v t = H.acked v t

def Upward (q : QuorumSystem N) : Prop :=
  ∀ Q Q' : Set N, q.IsQuorum Q → (∀ v ∈ Q, v ∈ Q') → q.IsQuorum Q'

variable {H' : History E N} {v : N}

theorem Grows.front (hg : Grows H H') (hk : k ≤ (H.llog t).length) :
    H'.front t k = H.front t k := (prefix_take (hg.llog t) hk).symm

theorem Grows.retains (hg : Grows H H') (hk : k ≤ (H.llog t).length)
    (h : H.Retains t k u l) : H'.Retains t k u l := by
  rw [History.Retains, hg.front hk]
  rcases h with hfront | ⟨w, hw, htw, hwu, hnot⟩
  · exact Or.inl hfront
  · refine Or.inr ⟨w, hg.elected w hw, htw, hwu, ?_⟩
    rw [hg.start w hw]
    exact hnot

theorem Grows.keeps (hg : Grows H H') (hlaw : H.Lawful term)
    (hsame : ∀ t < u, H'.acked v t = H.acked v t) (h : H.Keeps v u l) : H'.Keeps v u l := by
  intro t ht k hk
  rw [hsame t ht] at hk
  exact hg.retains (hk.trans (hlaw.stored v t)) (h t ht k hk)

theorem Grows.ballot (hg : Grows H H') (hlaw : H.Lawful term) {lastT lastI : ℕ}
    (h : H.Ballot term v u lastT lastI) : H'.Ballot term v u lastT lastI := by
  obtain ⟨hcur, vlog, hmatch, hkeeps, hdate⟩ := h
  refine ⟨hcur.trans (hg.current v), vlog, hmatch.mono hg.llog, ?_, hdate⟩
  apply hg.keeps hlaw ?_ hkeeps
  intro t ht
  exact hg.settled v t (by omega)

theorem Grows.committed (hg : Grows H H') (hq : Upward q) (h : H.Committed term q t k) :
    H'.Committed term q t k := by
  obtain ⟨x, hx, hterm⟩ := h.entry
  refine ⟨h.pos, ⟨x, prefix_getElem? (hg.llog t) hx, hterm⟩, hq _ _ h.quorum ?_⟩
  intro v hv
  exact le_trans hv (hg.acked v t)

theorem Grows.committedUpTo (hg : Grows H H') (hq : Upward q)
    (h : H.CommittedUpTo term q u l) : H'.CommittedUpTo term q u l := by
  rcases h with rfl | ⟨t, ht, k, hc, hl⟩
  · exact Or.inl rfl
  · refine Or.inr ⟨t, ht, k, hg.committed hq hc, ?_⟩
    obtain ⟨x, hx, _⟩ := hc.entry
    have hlt := (List.getElem?_eq_some_iff.mp hx).1
    rw [hg.front (by omega)]
    exact hl

/-- The votes for earlier leaders stand. -/
theorem Grows.chosen (hg : Grows H H') (hlaw : H.Lawful term) (hq : Upward q)
    (h : H.Chosen term q)
    (hnew : ∀ u ∈ H'.elected, u ∉ H.elected → q.IsQuorum {v | H'.Voted term v u}) :
    H'.Chosen term q := by
  intro u hu
  by_cases hold : u ∈ H.elected
  · apply hq _ _ (h u hold)
    intro v hv
    have hballot := hg.ballot hlaw hv
    rw [← hg.start u hold] at hballot
    exact hballot
  · exact hnew u hu hold

theorem Grows.refl : Grows H H :=
  ⟨fun _ h => h, fun _ _ => rfl, fun _ => List.prefix_refl _, fun _ => le_rfl, fun _ _ => le_rfl,
    fun _ _ _ => rfl⟩

theorem Grows.trans {H'' : History E N} (h : Grows H H') (k : Grows H' H'') : Grows H H'' := by
  refine ⟨fun t ht => k.elected t (h.elected t ht), ?_, fun t => (h.llog t).trans (k.llog t),
    fun v => (h.current v).trans (k.current v), fun v t => (h.acked v t).trans (k.acked v t), ?_⟩
  · intro t ht
    rw [k.start t (h.elected t ht), h.start t ht]
  · intro v t ht
    rw [k.settled v t (Nat.lt_of_lt_of_le ht (h.current v)), h.settled v t ht]

/-- A later history whose logs have no entries but the old ones, at their places, and the
`new` ones, each behind what the leader of its term had. -/
structure Extends (term index : E → ℕ) (H H' : History E N) (new : List E) : Prop
    extends Grows H H' where
  entries : ∀ t k x, (H'.llog t)[k]? = some x →
    (∃ w, (H.llog w)[k]? = some x) ∨ x ∈ new ∧ index x = k + 1
  pushed : ∀ x ∈ new, (H.llog (term x)).length < index x ∧
    (H'.llog (term x))[index x - 1]? = some x

variable {index : E → ℕ}

theorem Extends.of_llog (hg : Grows H H') (hsame : H'.llog = H.llog) :
    Extends term index H H' [] := by
  constructor
  · exact hg
  · intro t k x hx
    rw [hsame] at hx
    exact Or.inl ⟨t, hx⟩
  · intro x hx
    exact absurd hx List.not_mem_nil

theorem Extends.refl : Extends term index H H [] := .of_llog .refl rfl

theorem Extends.trans {H'' : History E N} {new new' : List E}
    (h : Extends term index H H' new) (h' : Extends term index H' H'' new') :
    Extends term index H H'' (new ++ new') := by
  constructor
  · exact h.toGrows.trans h'.toGrows
  · intro t k x hx
    rcases h'.entries t k x hx with ⟨w, hw⟩ | ⟨hnew, hindex⟩
    · rcases h.entries w k x hw with hold | ⟨hnew, hindex⟩
      · exact Or.inl hold
      · exact Or.inr ⟨List.mem_append_left _ hnew, hindex⟩
    · exact Or.inr ⟨List.mem_append_right _ hnew, hindex⟩
  · intro x hx
    rcases List.mem_append.mp hx with hx | hx
    · obtain ⟨hlt, hat⟩ := h.pushed x hx
      exact ⟨hlt, prefix_getElem? (h'.llog _) hat⟩
    · obtain ⟨hlt, hat⟩ := h'.pushed x hx
      exact ⟨Nat.lt_of_le_of_lt (h.llog _).length_le hlt, hat⟩

theorem History.CommittedUpTo.later {u' : ℕ} (h : H.CommittedUpTo term q u l) (hu : u ≤ u') :
    H.CommittedUpTo term q u' l := by
  rcases h with rfl | ⟨t, ht, k, hc, hl⟩
  · exact Or.inl rfl
  · exact Or.inr ⟨t, ht.trans hu, k, hc, hl⟩

/-- A member moves to a later term, of which it has nothing yet. -/
theorem History.Keeps.later {u' : ℕ} (h : H.Keeps v u l) (hu : u ≤ u')
    (hfuture : ∀ t, u ≤ t → H.acked v t = 0) : H.Keeps v u' l := by
  intro t ht k hk
  by_cases htu : t < u
  · rcases h t htu k hk with hfront | ⟨w, hw, htw, hwu, hnot⟩
    · exact Or.inl hfront
    · exact Or.inr ⟨w, hw, htw, Nat.lt_of_lt_of_le hwu hu, hnot⟩
  · left
    rw [hfuture t (Nat.not_lt.mp htu)] at hk
    obtain rfl := Nat.le_zero.mp hk
    exact List.nil_prefix

/-- In a term without a leader. -/
theorem History.Keeps.lower (h : H.Keeps v (u + 1) l) (hu : u ∉ H.elected) :
    H.Keeps v u l := by
  intro t ht k hk
  rcases h t (Nat.lt_succ_of_lt ht) k hk with hfront | ⟨w, hw, htw, hwu, hnot⟩
  · exact Or.inl hfront
  · have hne : w ≠ u := fun heq => hu (heq ▸ hw)
    exact Or.inr ⟨w, hw, htw, by omega, hnot⟩

theorem History.Keeps.extend {l' : List E} (h : H.Keeps v u l) (hl : l <+: l') :
    H.Keeps v u l' := by
  intro t ht k hk
  rcases h t ht k hk with hfront | hlost
  · exact Or.inl (hfront.trans hl)
  · exact Or.inr hlost

/-- What a log takes over from the leader of the term costs it only what that leader was
elected without. -/
theorem History.Keeps.adopts {l' p : List E} (hlaw : H.Lawful term) (h : H.Keeps v (u + 1) l)
    (hu : u ∈ H.elected) (hp : p <+: H.llog u) (hl : Adopts p l l') :
    H.Keeps v (u + 1) l' := by
  intro t ht k hk
  rcases h t ht k hk with hfront | hlost
  · by_cases hin : H.front t k <+: H.llog u
    · exact Or.inl (hl.keeps hp hfront hin)
    · have hne : t ≠ u := by
        rintro rfl
        exact hin (List.take_prefix k _)
      refine Or.inr ⟨u, hu, by omega, Nat.lt_succ_self u, ?_⟩
      intro hstart
      exact hin (hstart.trans (hlaw.grown u))
  · exact Or.inr hlost

theorem majority_upward [DecidableEq N] {members : List N} {hnodup : members.Nodup} :
    Upward (majority members hnodup) := fun _ _ h hsub => majority_mono h hsub

/-- The leader of term `t` is elected with the log `l`. -/
def History.elect (H : History E N) (t : ℕ) (l : List E) : History E N :=
  { H with
    elected := insert t H.elected
    start := Function.update H.start t l
    llog := Function.update H.llog t l }

def History.push (H : History E N) (t : ℕ) (x : E) : History E N :=
  { H with llog := Function.update H.llog t (H.llog t ++ [x]) }

theorem elect_llog (H : History E N) (t : ℕ) (l : List E) : (H.elect t l).llog t = l :=
  Function.update_self ..

theorem elect_start (H : History E N) (t : ℕ) (l : List E) : (H.elect t l).start t = l :=
  Function.update_self ..

theorem elect_of_ne (H : History E N) {t w : ℕ} (l : List E) (hw : w ≠ t) :
    (H.elect t l).llog w = H.llog w ∧ (H.elect t l).start w = H.start w :=
  ⟨Function.update_of_ne hw _ _, Function.update_of_ne hw _ _⟩

theorem push_llog (H : History E N) (t : ℕ) (x : E) : (H.push t x).llog t = H.llog t ++ [x] :=
  Function.update_self ..

theorem push_of_ne (H : History E N) {t w : ℕ} (x : E) (hw : w ≠ t) :
    (H.push t x).llog w = H.llog w := Function.update_of_ne hw _ _

theorem elect_grows (hlaw : H.Lawful term) (ht : t ∉ H.elected) :
    Grows H (H.elect t l) := by
  refine ⟨fun _ h => Set.mem_insert_of_mem t h, ?_, ?_, fun _ => le_rfl, fun _ _ => le_rfl,
    fun _ _ _ => rfl⟩
  · intro w hw
    have hne : w ≠ t := fun heq => ht (heq ▸ hw)
    exact (elect_of_ne H l hne).2
  · intro w
    by_cases hw : w = t
    · have hnil : H.llog w = [] := by
        by_contra hne
        exact ht (hw ▸ hlaw.led w hne)
      rw [hnil]
      exact List.nil_prefix
    · rw [(elect_of_ne H l hw).1]

theorem elect_lawful (hlaw : H.Lawful term) (ht : t ∉ H.elected)
    (hterms : ∀ x ∈ l, 0 < term x ∧ term x < t) (hl : Matches term H.llog l) :
    (H.elect t l).Lawful term := by
  have hg := elect_grows (l := l) hlaw ht
  constructor
  · intro w
    by_cases hw : w = t
    · subst hw
      rw [elect_llog, elect_start]
    · rw [(elect_of_ne H l hw).1, (elect_of_ne H l hw).2]
      exact hlaw.grown w
  · intro w x hx
    by_cases hw : w = t
    · subst hw
      rw [elect_start] at hx
      exact (hterms x hx).2
    · rw [(elect_of_ne H l hw).2] at hx
      exact hlaw.startTerms w x hx
  · intro w x hx
    by_cases hw : w = t
    · subst hw
      rw [elect_llog] at hx
      exact ⟨(hterms x hx).1, Nat.le_of_lt (hterms x hx).2⟩
    · rw [(elect_of_ne H l hw).1] at hx
      exact hlaw.terms w x hx
  · intro w
    by_cases hw : w = t
    · subst hw
      rw [elect_llog]
      exact hl.mono hg.llog
    · rw [(elect_of_ne H l hw).1]
      exact (hlaw.matching w).mono hg.llog
  · intro w hne
    by_cases hw : w = t
    · exact hw ▸ Set.mem_insert _ _
    · rw [(elect_of_ne H l hw).1] at hne
      exact Set.mem_insert_of_mem t (hlaw.led w hne)
  · intro v w
    exact (hlaw.stored v w).trans (hg.llog w).length_le
  · exact hlaw.future

theorem push_grows (x : E) : Grows H (H.push t x) := by
  refine ⟨fun _ h => h, fun _ _ => rfl, ?_, fun _ => le_rfl, fun _ _ => le_rfl, fun _ _ _ => rfl⟩
  intro w
  by_cases hw : w = t
  · subst hw
    rw [push_llog]
    exact List.prefix_append _ _
  · rw [push_of_ne H x hw]

theorem push_lawful {x : E} (hlaw : H.Lawful term) (ht : t ∈ H.elected) (hx : term x = t)
    (hpos : 0 < t) : (H.push t x).Lawful term := by
  have hg := push_grows (H := H) (t := t) x
  constructor
  · intro w
    exact (hlaw.grown w).trans (hg.llog w)
  · exact hlaw.startTerms
  · intro w y hy
    by_cases hw : w = t
    · subst hw
      rw [push_llog] at hy
      rcases List.mem_append.mp hy with hy | hy
      · exact hlaw.terms w y hy
      · obtain rfl := List.mem_singleton.mp hy
        rw [hx]
        exact ⟨hpos, le_rfl⟩
    · rw [push_of_ne H x hw] at hy
      exact hlaw.terms w y hy
  · intro w
    by_cases hw : w = t
    · subst hw
      rw [push_llog]
      apply ((hlaw.matching w).mono hg.llog).push
      rw [hx, push_llog]
    · rw [push_of_ne H x hw]
      exact (hlaw.matching w).mono hg.llog
  · intro w hne
    by_cases hw : w = t
    · exact hw ▸ ht
    · rw [push_of_ne H x hw] at hne
      exact hlaw.led w hne
  · intro v w
    exact (hlaw.stored v w).trans (hg.llog w).length_le
  · exact hlaw.future

theorem push_extends {x : E} (hterm : term x = t) (hindex : index x = (H.llog t).length + 1) :
    Extends term index H (H.push t x) [x] := by
  have hlast : (H.llog t ++ [x])[(H.llog t).length]? = some x := List.getElem?_concat_length
  constructor
  · exact push_grows x
  · intro w k y hy
    by_cases hw : w = t
    · subst hw
      rw [push_llog, List.getElem?_append] at hy
      split at hy
      · exact Or.inl ⟨w, hy⟩
      · rename_i hge
        rw [List.getElem?_singleton] at hy
        split at hy
        · cases hy
          exact Or.inr ⟨List.mem_singleton_self _, by omega⟩
        · cases hy
    · rw [push_of_ne H x hw] at hy
      exact Or.inl ⟨w, hy⟩
  · intro y hy
    obtain rfl := List.mem_singleton.mp hy
    rw [hterm, hindex, push_llog, Nat.add_sub_cancel]
    exact ⟨Nat.lt_succ_self _, hlast⟩

/-- The entries of a leader's first log are those of earlier leaders. -/
theorem elect_extends (hlaw : H.Lawful term) (ht : t ∉ H.elected)
    (hl : Matches term H.llog l) : Extends term index H (H.elect t l) [] := by
  constructor
  · exact elect_grows hlaw ht
  · intro w k x hx
    by_cases hw : w = t
    · subst hw
      rw [elect_llog] at hx
      have hat : (l.take (k + 1))[k]? = some x := by
        rw [List.getElem?_take_of_lt (Nat.lt_succ_self k)]
        exact hx
      exact Or.inl ⟨term x, prefix_getElem? (hl k x hx) hat⟩
    · rw [(elect_of_ne H l hw).1] at hx
      exact Or.inl ⟨w, hx⟩
  · intro x hx
    exact absurd hx List.not_mem_nil

section

variable [DecidableEq N]

def History.advance (H : History E N) (v : N) (u : ℕ) : History E N :=
  { H with current := Function.update H.current v u }

/-- The member has taken in `k` entries of the leader of term `t`. -/
def History.store (H : History E N) (v : N) (t k : ℕ) : History E N :=
  { H with
    acked := Function.update H.acked v
      (Function.update (H.acked v) t (max (H.acked v t) k)) }

theorem advance_current (H : History E N) (v : N) (u : ℕ) : (H.advance v u).current v = u :=
  Function.update_self ..

theorem advance_grows (hu : H.current v ≤ u) : Grows H (H.advance v u) := by
  refine ⟨fun _ h => h, fun _ _ => rfl, fun _ => List.prefix_refl _, ?_, fun _ _ => le_rfl,
    fun _ _ _ => rfl⟩
  intro w
  by_cases hw : w = v
  · subst hw
    simpa [History.advance] using hu
  · simp [History.advance, hw]

theorem advance_lawful (hlaw : H.Lawful term) (hu : H.current v ≤ u) :
    (H.advance v u).Lawful term := by
  refine ⟨hlaw.grown, hlaw.startTerms, hlaw.terms, hlaw.matching, hlaw.led, hlaw.stored, ?_⟩
  intro w t hw
  exact hlaw.future w t (Nat.lt_of_le_of_lt ((advance_grows hu).current w) hw)

theorem store_acked (H : History E N) (v : N) (t k : ℕ) :
    (H.store v t k).acked v t = max (H.acked v t) k := by
  simp [History.store]

theorem store_acked_of_ne (H : History E N) {v w : N} {t t' : ℕ} (k : ℕ)
    (h : w = v → t' ≠ t) : (H.store v t k).acked w t' = H.acked w t' := by
  by_cases hw : w = v
  · subst hw
    simp [History.store, h rfl]
  · simp [History.store, hw]

theorem store_acked_other (H : History E N) {v w : N} (t k : ℕ) (h : w ≠ v) :
    (H.store v t k).acked w = H.acked w := Function.update_of_ne h _ _

theorem store_grows (hcur : H.current v = t) : Grows H (H.store v t k) := by
  refine ⟨fun _ h => h, fun _ _ => rfl, fun _ => List.prefix_refl _, fun _ => le_rfl, ?_, ?_⟩
  · intro w t'
    by_cases hw : w = v ∧ t' = t
    · rw [hw.1, hw.2, store_acked]
      exact Nat.le_max_left _ _
    · rw [store_acked_of_ne H k (fun h h' => hw ⟨h, h'⟩)]
  · intro w t' ht
    apply store_acked_of_ne H k
    rintro rfl rfl
    omega

theorem store_lawful (hlaw : H.Lawful term) (hcur : H.current v = t)
    (hk : k ≤ (H.llog t).length) : (H.store v t k).Lawful term := by
  refine ⟨hlaw.grown, hlaw.startTerms, hlaw.terms, hlaw.matching, hlaw.led, ?_, ?_⟩
  · intro w t'
    by_cases hw : w = v ∧ t' = t
    · rw [hw.1, hw.2, store_acked]
      exact Nat.max_le.mpr ⟨hlaw.stored v t, hk⟩
    · rw [store_acked_of_ne H k (fun h h' => hw ⟨h, h'⟩)]
      exact hlaw.stored w t'
  · intro w t' ht
    rw [store_acked_of_ne H k]
    · exact hlaw.future w t' ht
    · rintro rfl rfl
      have hcur' : (H.store w t' k).current w = H.current w := rfl
      omega

/-- The log of a member that has taken in a front part. -/
theorem History.Keeps.store (h : H.Keeps v (t + 1) l) (hl : H.front t k <+: l) :
    (H.store v t k).Keeps v (t + 1) l := by
  intro w hw j hj
  by_cases heq : w = t
  · subst heq
    rw [store_acked] at hj
    rcases le_max_iff.mp hj with hle | hle
    · exact h w hw j hle
    · left
      exact (List.take_prefix_take_left hle).trans hl
  · rw [store_acked_of_ne H k (fun _ => heq)] at hj
    exact h w hw j hj

end

end LeaderCompleteness
