import DistributedWal.LabelledRuns

/-! # An append-only log on storage that can lose its power

The front of the log is firm: an outage leaves it in place. Of the loose back an outage
leaves some prefix. An element that was made firm before the first outage after its
arrival stays until it is removed on purpose.
-/
namespace DurableLog

open LabelledRuns

variable {α : Type*}

structure Log (α : Type*) where
  firm : List α
  loose : List α

def Log.held (l : Log α) : List α := l.firm ++ l.loose

def Log.empty : Log α := ⟨[], []⟩

/-- `pending` are the elements an operation was adding when it was stopped, and `lost` says
which elements it removes. -/
inductive Change (α : Type*) where
  | push (x : α) (sync : Bool)
  | harden
  | stop (pending : List α) (lost : α → Prop)
  | outage (pending : List α) (lost : α → Prop)

/-- From `l` to `l'`, elements that may go left from the front, and a part of the pending
ones joined. Nothing firm got loose. -/
structure Midway (pending : List α) (lost : α → Prop) (l l' : Log α) : Prop where
  parts : ∃ gone rest kept, l.firm = gone ++ rest ∧ (∀ x ∈ gone, lost x) ∧
    kept <+: pending ∧ l'.held = rest ++ l.loose ++ kept ∧ rest <+: l'.firm

inductive Step : Log α → Change α → Log α → Prop where
  | push {l l' : Log α} {x : α} {sync : Bool} : l'.held = l.held ++ [x] →
      l.firm <+: l'.firm → (sync = true → l'.loose = []) → Step l (.push x sync) l'
  | harden {l l' : Log α} : l'.held = l.held → l'.loose = [] → Step l .harden l'
  | stop {l l' : Log α} {pending : List α} {lost : α → Prop} : Midway pending lost l l' →
      Step l (.stop pending lost) l'
  | outage {l l₁ : Log α} {pending kept : List α} {lost : α → Prop} :
      Midway pending lost l l₁ → kept <+: l₁.loose →
      Step l (.outage pending lost) ⟨l₁.firm ++ kept, []⟩

def Change.added : Change α → List α
  | .push x _ => [x]
  | .harden => []
  | .stop pending _ => pending
  | .outage pending _ => pending

/-- Everything that was handed to the log, in order. -/
def added (cs : List (Change α)) : List α := cs.flatMap Change.added

def Change.Loses (x : α) : Change α → Prop
  | .stop _ lost => lost x
  | .outage _ lost => lost x
  | _ => False

def Change.Cuts : Change α → Prop
  | .outage _ _ => True
  | _ => False

def Change.Hardens : Change α → Prop
  | .push _ sync => sync = true
  | .harden => True
  | _ => False

/-- Leaves nothing loose where nothing was. -/
def Change.Tight : Change α → Prop
  | .push _ sync => sync = true
  | .stop pending _ => pending = []
  | _ => True

/-- Everything is firm: since the last hardening or outage no element was left loose. -/
def Tight (cs : List (Change α)) : Prop :=
  ∃ pre post, cs = pre ++ post ∧ (∀ c ∈ post, c.Tight) ∧
    (pre = [] ∨ ∃ front f, pre = front ++ [f] ∧ (f.Hardens ∨ f.Cuts))

/-- The element was pushed and nothing removed it since. No outage followed, or it was made
firm before the first one. -/
def Secured (cs : List (Change α)) (x : α) : Prop :=
  ∃ pre sync post, cs = pre ++ .push x sync :: post ∧ (∀ c ∈ post, ¬ c.Loses x) ∧
    ((∀ c ∈ post, ¬ c.Cuts) ∨
      ∃ mid f back, .push x sync :: post = mid ++ f :: back ∧ f.Hardens ∧
        ∀ c ∈ mid, ¬ c.Cuts)

variable {l l' l₁ : Log α} {c : Change α} {cs : List (Change α)} {x : α}

theorem Log.held_of_firm (h : x ∈ l.firm) : x ∈ l.held := List.mem_append_left _ h

theorem Log.firm_of_tight (h : l.loose = []) : l.firm = l.held := by
  rw [held, h, List.append_nil]

theorem Midway.added {pending kept : List α} {lost : α → Prop} (hkept : kept <+: pending)
    (hheld : l'.held = l.held ++ kept) (hfirm : l.firm <+: l'.firm) :
    Midway pending lost l l' :=
  ⟨[], l.firm, kept, by simp, by simp, hkept, by simpa [Log.held] using hheld, hfirm⟩

/-- The same elements, more of them firm. -/
theorem Midway.firmer {pending : List α} {lost : α → Prop} (hheld : l'.held = l.held)
    (hfirm : l.firm <+: l'.firm) : Midway pending lost l l' :=
  .added List.nil_prefix (by simpa using hheld) hfirm

theorem Midway.forgot {lost : α → Prop} {gone : List α} (hfirm : l.firm = gone ++ l'.firm)
    (hlost : ∀ x ∈ gone, lost x) (hloose : l'.loose = l.loose) : Midway [] lost l l' :=
  ⟨gone, l'.firm, [], hfirm, hlost, List.prefix_rfl, by simp [Log.held, hloose],
    List.prefix_rfl⟩

theorem Midway.sublist {pending : List α} {lost : α → Prop} (h : Midway pending lost l l') :
    l'.held.Sublist (l.held ++ pending) := by
  obtain ⟨gone, rest, kept, hfirm, _, hkept, hheld, _⟩ := h.parts
  have hrest : rest.Sublist l.firm := hfirm ▸ List.sublist_append_right gone rest
  rw [hheld]
  exact (hrest.append (List.Sublist.refl _)).append hkept.sublist

theorem Midway.keeps_firm {pending : List α} {lost : α → Prop}
    (h : Midway pending lost l l') (hx : x ∈ l.firm) (hlost : ¬ lost x) : x ∈ l'.firm := by
  obtain ⟨gone, rest, kept, hfirm, hgone, _, _, hrest⟩ := h.parts
  rw [hfirm] at hx
  rcases List.mem_append.mp hx with hx | hx
  · exact absurd (hgone x hx) hlost
  · exact hrest.subset hx

theorem Midway.keeps_held {pending : List α} {lost : α → Prop}
    (h : Midway pending lost l l') (hx : x ∈ l.held) (hlost : ¬ lost x) : x ∈ l'.held := by
  rcases List.mem_append.mp hx with hx | hx
  · exact Log.held_of_firm (h.keeps_firm hx hlost)
  · obtain ⟨gone, rest, kept, _, _, _, hheld, _⟩ := h.parts
    rw [hheld]
    exact List.mem_append_left _ (List.mem_append_right _ hx)

/-- Where nothing is loose and nothing is being added, nothing gets loose. -/
theorem Midway.tight {lost : α → Prop} (h : Midway [] lost l l') (hl : l.loose = []) :
    l'.loose = [] := by
  obtain ⟨_, rest, kept, _, _, hkept, hheld, hrest⟩ := h.parts
  obtain rfl := List.prefix_nil.mp hkept
  obtain ⟨more, hmore⟩ := hrest
  rw [Log.held, ← hmore, hl, List.append_nil, List.append_nil, List.append_assoc] at hheld
  exact (List.append_eq_nil_iff.mp (List.append_right_eq_self.mp hheld)).2

/-- A step invents nothing and reorders nothing. -/
theorem Step.sublist (h : Step l c l') : l'.held.Sublist (l.held ++ c.added) := by
  cases h with
  | push hheld => exact hheld ▸ List.Sublist.refl _
  | harden hheld => simp [Change.added, hheld]
  | stop hmid => exact hmid.sublist
  | outage hmid hkept =>
    refine List.Sublist.trans ?_ hmid.sublist
    simpa [Log.held] using hkept.sublist

theorem Step.keeps_firm (h : Step l c l') (hx : x ∈ l.firm) (hc : ¬ c.Loses x) :
    x ∈ l'.firm := by
  cases h with
  | push _ hfirm => exact hfirm.subset hx
  | harden hheld htight =>
    rw [Log.firm_of_tight htight, hheld]
    exact Log.held_of_firm hx
  | stop hmid => exact hmid.keeps_firm hx hc
  | outage hmid => exact List.mem_append_left _ (hmid.keeps_firm hx hc)

theorem Step.keeps_held (h : Step l c l') (hx : x ∈ l.held) (hc : ¬ c.Loses x)
    (hcut : ¬ c.Cuts) : x ∈ l'.held := by
  cases h with
  | push hheld => exact hheld ▸ List.mem_append_left _ hx
  | harden hheld => exact hheld ▸ hx
  | stop hmid => exact hmid.keeps_held hx hc
  | outage => exact absurd trivial hcut

theorem Step.hardened (h : Step l c l') (hc : c.Hardens) : l'.loose = [] := by
  cases h with
  | push _ _ hsync => exact hsync hc
  | harden _ htight => exact htight
  | stop => exact hc.elim
  | outage => exact hc.elim

theorem Step.tight (h : Step l c l') (hl : l.loose = []) (hc : c.Tight) : l'.loose = [] := by
  cases h with
  | push _ _ hsync => exact hsync hc
  | harden _ htight => exact htight
  | stop hmid =>
    simp only [Change.Tight] at hc
    exact (hc ▸ hmid).tight hl
  | outage => rfl

theorem Run.sublist (h : Steps Step Log.empty cs l) : l.held.Sublist (added cs) := by
  induction h with
  | nil => exact List.nil_sublist _
  | snoc _ hc ih =>
    rw [added, List.flatMap_append, List.flatMap_singleton]
    exact hc.sublist.trans (ih.append (List.Sublist.refl _))

theorem Run.keeps_firm (h : Steps Step l cs l') (hx : x ∈ l.firm)
    (hcs : ∀ c ∈ cs, ¬ c.Loses x) : x ∈ l'.firm := by
  induction h with
  | nil => exact hx
  | snoc _ hc ih =>
    exact hc.keeps_firm (ih (fun c hm => hcs c (List.mem_append_left _ hm)))
      (hcs _ (by simp))

theorem Run.keeps_held (h : Steps Step l cs l') (hx : x ∈ l.held)
    (hcs : ∀ c ∈ cs, ¬ c.Loses x) (hcuts : ∀ c ∈ cs, ¬ c.Cuts) : x ∈ l'.held := by
  induction h with
  | nil => exact hx
  | snoc _ hc ih =>
    exact hc.keeps_held (ih (fun c hm => hcs c (List.mem_append_left _ hm))
      (fun c hm => hcuts c (List.mem_append_left _ hm))) (hcs _ (by simp)) (hcuts _ (by simp))

theorem Run.tight (h : Steps Step Log.empty cs l) (ht : Tight cs) : l.loose = [] := by
  obtain ⟨pre, post, rfl, hpost, hpre⟩ := ht
  obtain ⟨l₀, hfront, hback⟩ := h.split
  have hl₀ : l₀.loose = [] := by
    rcases hpre with rfl | ⟨front, f, rfl, hf⟩
    · rw [← hfront.nil_inv]
      rfl
    · obtain ⟨_, _, hlast⟩ := hfront.snoc_inv
      rcases hf with hf | hf
      · exact hlast.hardened hf
      · cases hlast with
        | outage => rfl
        | _ => exact hf.elim
  clear hpre hfront h
  induction hback with
  | nil => exact hl₀
  | snoc _ hc ih =>
    exact hc.tight (ih (fun c hm => hpost c (List.mem_append_left _ hm))) (hpost _ (by simp))

/-- A pushed element is firm after the first hardening, when no outage came before. -/
theorem Run.secured (h : Steps Step Log.empty cs l) (hx : Secured cs x) : x ∈ l.held := by
  obtain ⟨pre, sync, post, rfl, hpost, hcase⟩ := hx
  obtain ⟨l₀, l₂, _, hpush, hback⟩ := h.at
  have hheld : x ∈ l₂.held := by
    cases hpush with
    | push hheld => exact hheld ▸ List.mem_append_right _ (by simp)
  rcases hcase with hcuts | ⟨mid, f, back, hsplit, hf, hmid⟩
  · exact Run.keeps_held hback hheld hpost hcuts
  · cases mid with
    | nil =>
      obtain ⟨rfl, rfl⟩ := List.cons.inj hsplit
      have hfirm : x ∈ l₂.firm := by
        rw [Log.firm_of_tight (hpush.hardened hf)]
        exact hheld
      exact Log.held_of_firm (Run.keeps_firm hback hfirm hpost)
    | cons g mid =>
      obtain ⟨rfl, rfl⟩ := List.cons.inj hsplit
      obtain ⟨l₃, l₄, hmids, hharden, hrest⟩ := hback.at
      have h₃ : x ∈ l₃.held := Run.keeps_held hmids hheld
        (fun c hc => hpost c (List.mem_append_left _ hc))
        (fun c hc => hmid c (List.mem_cons_of_mem _ hc))
      have hnone : ¬ f.Cuts := by
        cases f <;> simp_all [Change.Cuts, Change.Hardens]
      have hfirm : x ∈ l₄.firm := by
        rw [Log.firm_of_tight (hharden.hardened hf)]
        exact hharden.keeps_held h₃ (hpost f (by simp)) hnone
      exact Log.held_of_firm
        (Run.keeps_firm hrest hfirm (fun c hc => hpost c (by simp [hc])))

end DurableLog
