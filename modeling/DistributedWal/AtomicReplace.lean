import DistributedWal.DurableLog

/-! # A value in a file that is replaced as a whole

The new contents go to a temporary file, which is then renamed over the old one. The
process can be killed and the power can be lost between any two system calls. With a sync
before the rename every replacement takes effect as a whole or not at all. Without one
this holds while the power stays on.
-/
namespace AtomicReplace

open LabelledRuns DurableLog

variable {α σ ω : Type*}

/-- An outage leaves at least the first `synced` elements. -/
structure File (α : Type*) where
  held : List α
  synced : ℕ

inductive Call (α : Type*) where
  | create
  | write (part : List α)
  | fsync
  | rename

/-- `older` are the files that stood at the destination since the last outage. The
directory is never synced, so an outage may bring any of them back. -/
structure Place (α : Type*) where
  tmp : Option (File α)
  dest : Option (File α)
  older : List (Option (File α))

def Place.contents (p : Place α) : Option (List α) := p.dest.map File.held

def Place.call (p : Place α) : Call α → Place α
  | .create => { p with tmp := some ⟨[], 0⟩ }
  | .write part => { p with tmp := p.tmp.map (fun f => ⟨f.held ++ part, f.synced⟩) }
  | .fsync => { p with tmp := p.tmp.map (fun f => ⟨f.held, f.held.length⟩) }
  | .rename =>
    match p.tmp with
    | none => p
    | some f => ⟨none, some f, p.dest :: p.older⟩

def Place.calls (p : Place α) (cs : List (Call α)) : Place α := cs.foldl Place.call p

/-- The contents may be written in several parts. -/
def replaceCalls (sync : Bool) (parts : List (List α)) : List (Call α) :=
  (.create :: (parts.map .write ++ if sync then [.fsync] else [])) ++ [.rename]

/-- The file that `replaceCalls` puts in place. -/
def replaced (sync : Bool) (contents : List α) : File α :=
  ⟨contents, if sync then contents.length else 0⟩

def File.Leaves (f left : File α) : Prop :=
  ∃ n, f.synced ≤ n ∧ left = ⟨f.held.take n, (f.held.take n).length⟩

/-- The temporary file may be anything after an outage. -/
structure Place.Outage (p p' : Place α) : Prop where
  found : ∃ v ∈ p.dest :: p.older, Option.Rel File.Leaves v p'.dest
  fresh : p'.older = []

/-- Nothing at the place is at risk. -/
structure Place.Settled (p : Place α) : Prop where
  older : p.older = []
  synced : ∀ f ∈ p.dest, f.held.length ≤ f.synced

/-- A value kept in a file. `writes` is `none` for an operation that leaves the file as it
is. -/
structure Cell (σ ω α : Type*) where
  load : Option (List α) → σ
  apply : σ → ω → σ
  writes : σ → ω → Option (List α)

/-- What an operation writes is loaded as its result. -/
structure Cell.Lawful (c : Cell σ ω α) (fits : σ → ω → Prop) : Prop where
  loads : ∀ {s o contents}, fits s o → c.writes s o = some contents →
    c.load (some contents) = c.apply s o
  quiet : ∀ {s o}, fits s o → c.writes s o = none → c.apply s o = s

inductive Cell.Calls (c : Cell σ ω α) (sync : Bool) (s : σ) :
    Option ω → List (Call α) → Prop where
  | rest : Calls c sync s none []
  | quiet {o} : c.writes s o = none → Calls c sync s (some o) []
  | replace {o parts} : c.writes s o = some parts.flatten →
      Calls c sync s (some o) (replaceCalls sync parts)

structure Machine (σ α : Type*) where
  memory : σ
  place : Place α

def Cell.started (c : Cell σ ω α) (p : Place α) : Machine σ α := ⟨c.load p.contents, p⟩

/-- `pending` is the operation that was going on. -/
inductive Event (ω : Type*) where
  | applied (o : ω)
  | killed (pending : Option ω)
  | outage (pending : Option ω)

def Event.IsOutage : Event ω → Prop
  | .outage _ => True
  | _ => False

/-- After a kill or an outage the next process loads what it finds. -/
inductive Step (c : Cell σ ω α) (fits : σ → ω → Prop) (sync : Bool) :
    Machine σ α → Event ω → Machine σ α → Prop where
  | applied {m o cs} : fits m.memory o → c.Calls sync m.memory (some o) cs →
      Step c fits sync m (.applied o) ⟨c.apply m.memory o, m.place.calls cs⟩
  | killed {m pending cs done} : (∀ o ∈ pending, fits m.memory o) →
      c.Calls sync m.memory pending cs → done <+: cs →
      Step c fits sync m (.killed pending) (c.started (m.place.calls done))
  | outage {m pending cs done p} : (∀ o ∈ pending, fits m.memory o) →
      c.Calls sync m.memory pending cs → done <+: cs → (m.place.calls done).Outage p →
      Step c fits sync m (.outage pending) (c.started p)

/-- The operations as elements of a log: one that was going on may or may not join. -/
def Event.change : Event ω → Change ω
  | .applied o => .push o false
  | .killed pending => .stop pending.toList (fun _ => False)
  | .outage pending => .outage pending.toList (fun _ => False)

theorem calls_append (p : Place α) (cs ds : List (Call α)) :
    p.calls (cs ++ ds) = (p.calls cs).calls ds := List.foldl_append

theorem calls_writes (parts : List (List α)) (f : File α) (dest : Option (File α))
    (older : List (Option (File α))) :
    Place.calls ⟨some f, dest, older⟩ (parts.map .write) =
      ⟨some ⟨f.held ++ parts.flatten, f.synced⟩, dest, older⟩ := by
  induction parts generalizing f with
  | nil => simp [Place.calls]
  | cons part parts ih =>
    have hstep : Place.calls ⟨some f, dest, older⟩ ((part :: parts).map .write) =
        Place.calls ⟨some ⟨f.held ++ part, f.synced⟩, dest, older⟩ (parts.map .write) := rfl
    rw [hstep, ih]
    simp

theorem calls_replace (p : Place α) (sync : Bool) (parts : List (List α)) :
    p.calls (replaceCalls sync parts) =
      ⟨none, some (replaced sync parts.flatten), p.dest :: p.older⟩ := by
  have hcreate : p.call .create = ⟨some ⟨[], 0⟩, p.dest, p.older⟩ := rfl
  rw [replaceCalls, calls_append]
  cases sync with
  | false =>
    have hfront : p.calls (.create :: (parts.map .write ++ [])) =
        (p.call .create).calls (parts.map .write) := by
      rw [List.append_nil]
      rfl
    simp only [Bool.false_eq_true, if_false, hfront, hcreate, calls_writes]
    rfl
  | true =>
    have hfront : p.calls (.create :: (parts.map .write ++ [.fsync])) =
        ((p.call .create).calls (parts.map .write)).calls [.fsync] :=
      calls_append (p.call .create) _ _
    simp only [if_true, hfront, hcreate, calls_writes]
    rfl

/-- Only the rename touches the destination. -/
theorem calls_quiet {cs : List (Call α)} (hcs : ∀ c ∈ cs, c ≠ .rename) (p : Place α) :
    (p.calls cs).dest = p.dest ∧ (p.calls cs).older = p.older := by
  induction cs generalizing p with
  | nil => exact ⟨rfl, rfl⟩
  | cons c cs ih =>
    obtain ⟨hdest, holder⟩ := ih (fun d hd => hcs d (List.mem_cons_of_mem _ hd)) (p.call c)
    have hkeep : (p.call c).dest = p.dest ∧ (p.call c).older = p.older := by
      cases c with
      | rename => exact absurd rfl (hcs .rename (by simp))
      | _ => exact ⟨rfl, rfl⟩
    exact ⟨hdest.trans hkeep.1, holder.trans hkeep.2⟩

theorem calls_prefix {sync : Bool} {parts : List (List α)} {done : List (Call α)}
    (hdone : done <+: replaceCalls sync parts) (p : Place α) :
    done = replaceCalls sync parts ∨
      ((p.calls done).dest = p.dest ∧ (p.calls done).older = p.older) := by
  rcases List.prefix_concat_iff.mp hdone with hall | hfront
  · exact .inl hall
  · refine .inr (calls_quiet (fun c hc => ?_) p)
    have hmem := hfront.subset hc
    rintro rfl
    cases sync <;> simp at hmem

variable {c : Cell σ ω α} {fits : σ → ω → Prop} {sync : Bool} {s : σ} {o : ω}
  {pending : Option ω} {cs done : List (Call α)} {p p' : Place α} {m m' : Machine σ α}
  {l : Log ω} {init : σ} {es : List (Event ω)} {contents : List α}

/-- The place after an operation that wrote. -/
def Place.after (p : Place α) (sync : Bool) (contents : List α) : Place α :=
  ⟨none, some (replaced sync contents), p.dest :: p.older⟩

theorem Cell.Calls.whole (hcalls : c.Calls sync s (some o) cs) :
    (c.writes s o = none ∧ p.calls cs = p) ∨
      ∃ contents, c.writes s o = some contents ∧ p.calls cs = p.after sync contents := by
  cases hcalls with
  | quiet hw => exact .inl ⟨hw, rfl⟩
  | replace hw => exact .inr ⟨_, hw, calls_replace p sync _⟩

theorem Cell.Calls.part (hcalls : c.Calls sync s pending cs) (hdone : done <+: cs) :
    ((p.calls done).dest = p.dest ∧ (p.calls done).older = p.older) ∨
      ∃ o contents, pending = some o ∧ c.writes s o = some contents ∧
        p.calls done = p.after sync contents := by
  cases hcalls with
  | rest =>
    rw [List.prefix_nil.mp hdone]
    exact .inl ⟨rfl, rfl⟩
  | quiet =>
    rw [List.prefix_nil.mp hdone]
    exact .inl ⟨rfl, rfl⟩
  | replace hw =>
    rcases calls_prefix hdone p with hall | hquiet
    · exact .inr ⟨_, _, rfl, hw, hall ▸ calls_replace p sync _⟩
    · exact .inl hquiet

/-- Contents that are written in one part. -/
theorem Cell.Calls.single (hw : c.writes s o = some contents) :
    c.Calls sync s (some o) (replaceCalls sync [contents]) :=
  .replace (by rw [hw, List.flatten_singleton])

theorem Step.single (hfits : fits m.memory o) (hw : c.writes m.memory o = some contents) :
    Step c fits sync m (.applied o) ⟨c.apply m.memory o, m.place.after sync contents⟩ := by
  have hplace : m.place.calls (replaceCalls sync [contents]) = m.place.after sync contents := by
    rw [calls_replace, List.flatten_singleton]
    rfl
  exact hplace ▸ .applied hfits (Cell.Calls.single hw)

/-- Memory is what the operations of the log make of the first value. So is the file, and
each older file belongs to a moment since the last outage. -/
structure Tracks (c : Cell σ ω α) (init : σ) (m : Machine σ α) (l : Log ω) : Prop where
  memory : m.memory = l.held.foldl c.apply init
  loads : c.load m.place.contents = m.memory
  older : ∀ v ∈ m.place.older, ∃ kept, kept <+: l.loose ∧
    c.load (v.map File.held) = (l.firm ++ kept).foldl c.apply init

theorem held_joined (l : Log ω) (more : List ω) :
    Log.held ⟨l.firm, l.loose ++ more⟩ = l.held ++ more :=
  (List.append_assoc l.firm l.loose more).symm

theorem Tracks.versions (h : Tracks c init m l) :
    ∀ v ∈ m.place.dest :: m.place.older, ∃ kept, kept <+: l.loose ∧
      c.load (v.map File.held) = (l.firm ++ kept).foldl c.apply init := by
  intro v hv
  rcases List.mem_cons.mp hv with rfl | hv
  · exact ⟨l.loose, List.prefix_rfl, h.loads.trans h.memory⟩
  · exact h.older v hv

theorem Tracks.same (h : Tracks c init m l) (hdest : p.dest = m.place.dest)
    (holder : p.older = m.place.older) : Tracks c init (c.started p) l := by
  have hcontents : p.contents = m.place.contents := by
    rw [Place.contents, Place.contents, hdest]
  constructor
  · exact (congrArg c.load hcontents).trans (h.loads.trans h.memory)
  · rfl
  · exact holder ▸ h.older

theorem Tracks.grown (h : Tracks c init m l) (hmemory : m'.memory = c.apply m.memory o)
    (hloads : c.load m'.place.contents = m'.memory)
    (holder : ∀ v ∈ m'.place.older, v ∈ m.place.dest :: m.place.older) :
    Tracks c init m' ⟨l.firm, l.loose ++ [o]⟩ := by
  constructor
  · rw [hmemory, h.memory, held_joined, List.foldl_append]
    rfl
  · exact hloads
  · intro v hv
    obtain ⟨kept, hkept, hload⟩ := h.versions v (holder v hv)
    exact ⟨kept, hkept.trans (List.prefix_append _ _), hload⟩

/-- An operation that was applied joins the log. -/
theorem Tracks.applied (hlaw : c.Lawful fits) (h : Tracks c init m l)
    (hfits : fits m.memory o) (hcalls : c.Calls sync m.memory (some o) cs) :
    Tracks c init ⟨c.apply m.memory o, m.place.calls cs⟩ ⟨l.firm, l.loose ++ [o]⟩ := by
  rcases hcalls.whole (p := m.place) with ⟨hw, hcs⟩ | ⟨contents, hw, hcs⟩
  · refine h.grown rfl ?_ (fun v hv => List.mem_cons_of_mem _ (hcs ▸ hv))
    exact hcs.symm ▸ h.loads.trans (hlaw.quiet hfits hw).symm
  · rw [hcs]
    exact h.grown rfl (hlaw.loads hfits hw) (fun _ hv => hv)

/-- One that was stopped half-way joins the log or leaves everything as it was. -/
theorem Tracks.stopped (hlaw : c.Lawful fits) (h : Tracks c init m l)
    (hfits : ∀ o ∈ pending, fits m.memory o) (hcalls : c.Calls sync m.memory pending cs)
    (hdone : done <+: cs) :
    ∃ kept, kept <+: pending.toList ∧
      Tracks c init (c.started (m.place.calls done)) ⟨l.firm, l.loose ++ kept⟩ := by
  rcases hcalls.part (p := m.place) hdone with ⟨hdest, holder⟩ | ⟨o, contents, rfl, hw, hcs⟩
  · refine ⟨[], List.nil_prefix, ?_⟩
    rw [List.append_nil]
    exact h.same hdest holder
  · rw [hcs]
    exact ⟨[o], List.prefix_rfl, h.grown (hlaw.loads (hfits o rfl) hw) rfl (fun _ hv => hv)⟩

/-- No outage cuts a file at the place. -/
def Place.Whole (p : Place α) : Prop :=
  ∀ v ∈ p.dest :: p.older, ∀ f ∈ v, f.held.length ≤ f.synced

theorem Place.Settled.whole (h : p.Settled) : p.Whole := by
  intro v hv
  rw [h.older, List.mem_singleton] at hv
  exact hv ▸ h.synced

theorem Place.Whole.after (h : p.Whole) (contents : List α) : (p.after true contents).Whole := by
  intro v hv f hf
  rcases List.mem_cons.mp hv with rfl | hv
  · obtain rfl := Option.mem_some_iff.mp hf
    exact Nat.le_refl _
  · exact h v hv f hf

theorem Place.Whole.part (h : p.Whole) (hcalls : c.Calls true s pending cs)
    (hdone : done <+: cs) : (p.calls done).Whole := by
  rcases hcalls.part (p := p) hdone with ⟨hdest, holder⟩ | ⟨o, contents, _, _, hcs⟩
  · rw [Whole, hdest, holder]
    exact h
  · exact hcs ▸ h.after contents

theorem Place.Outage.settled (hout : p.Outage p') : p'.Settled := by
  obtain ⟨v, _, hrel⟩ := hout.found
  refine ⟨hout.fresh, fun f hf => ?_⟩
  rw [Option.mem_def.mp hf] at hrel
  cases hrel with
  | some hleaves =>
    obtain ⟨n, _, rfl⟩ := hleaves
    exact Nat.le_refl _

/-- What an outage leaves is a cut of a file that stood there. -/
theorem Place.Outage.cut (hout : p.Outage p') :
    ∃ v ∈ p.dest :: p.older, ∃ n, p'.contents = (v.map File.held).map (List.take n) ∧
      ∀ f ∈ v, f.synced ≤ n := by
  obtain ⟨v, hv, hrel⟩ := hout.found
  refine ⟨v, hv, ?_⟩
  rw [Place.contents]
  generalize p'.dest = left at hrel
  cases hrel with
  | none => exact ⟨0, rfl, by simp⟩
  | some hleaves =>
    obtain ⟨n, hn, rfl⟩ := hleaves
    exact ⟨n, rfl, by simpa using hn⟩

theorem Place.Outage.uncut (hout : p.Outage p') (hwhole : p.Whole) :
    ∃ v ∈ p.dest :: p.older, p'.contents = v.map File.held := by
  obtain ⟨v, hv, n, hcut, hn⟩ := hout.cut
  refine ⟨v, hv, hcut.trans ?_⟩
  cases v with
  | none => rfl
  | some f =>
    have hlen : f.held.length ≤ n := Nat.le_trans (hwhole _ hv f rfl) (hn f rfl)
    simp [List.take_of_length_le hlen]

/-- The place goes back to some moment since the last outage, and not to one before. -/
theorem Tracks.outage (h : Tracks c init m l) (hwhole : m.place.Whole)
    (hout : m.place.Outage p') :
    ∃ kept, kept <+: l.loose ∧ Tracks c init (c.started p') ⟨l.firm ++ kept, []⟩ := by
  obtain ⟨v, hv, hcontents⟩ := hout.uncut hwhole
  obtain ⟨kept, hkept, hload⟩ := h.versions v hv
  refine ⟨kept, hkept, ?_, rfl, ?_⟩
  · rw [Log.held, List.append_nil]
    exact (congrArg c.load hcontents).trans hload
  · rw [Cell.started, hout.fresh]
    exact fun v hv => absurd hv List.not_mem_nil

theorem Tracks.step (hlaw : c.Lawful fits) {e : Event ω} (h : Tracks c init m l)
    (hsafe : e.IsOutage → sync = true ∧ m.place.Whole) (hstep : Step c fits sync m e m') :
    ∃ l', DurableLog.Step l e.change l' ∧ Tracks c init m' l' := by
  cases hstep with
  | applied hfits hcalls =>
    exact ⟨⟨l.firm, l.loose ++ [_]⟩, .push (held_joined l _) List.prefix_rfl (by simp),
      h.applied hlaw hfits hcalls⟩
  | killed hfits hcalls hdone =>
    obtain ⟨kept, hkept, ht⟩ := h.stopped hlaw hfits hcalls hdone
    exact ⟨⟨l.firm, l.loose ++ kept⟩, .stop (.added hkept (held_joined l _) List.prefix_rfl),
      ht⟩
  | outage hfits hcalls hdone hout =>
    obtain ⟨rfl, hwhole⟩ := hsafe trivial
    obtain ⟨kept, hkept, ht⟩ := h.stopped hlaw hfits hcalls hdone
    obtain ⟨left, hleft, ht'⟩ := ht.outage (hwhole.part hcalls hdone) hout
    have hmid : Midway _ (fun _ => False) l ⟨l.firm, l.loose ++ kept⟩ :=
      .added hkept (held_joined l _) List.prefix_rfl
    exact ⟨_, .outage hmid hleft, ht'⟩

theorem Place.Whole.step {e : Event ω} (h : m.place.Whole)
    (hstep : Step c fits true m e m') : m'.place.Whole := by
  cases hstep with
  | applied _ hcalls => exact h.part hcalls List.prefix_rfl
  | killed _ hcalls hdone => exact h.part hcalls hdone
  | outage _ _ _ hout => exact hout.settled.whole

/-- Every run of the system calls is a run of whole operations: each that was applied, and
of those that were stopped some, until an outage takes the last ones back. Without a sync
the same holds of the runs without an outage. -/
theorem run_tracks (hlaw : c.Lawful fits) (hp : p.Settled)
    (run : Steps (Step c fits sync) (c.started p) es m)
    (hsafe : sync = true ∨ ∀ e ∈ es, ¬ e.IsOutage) :
    ∃ l, Steps DurableLog.Step Log.empty (es.map Event.change) l ∧
      Tracks c (c.load p.contents) m l := by
  have hstart : Tracks c (c.load p.contents) (c.started p) Log.empty :=
    ⟨rfl, rfl, fun v hv => by
      rw [Cell.started, hp.older] at hv
      exact absurd hv List.not_mem_nil⟩
  have hrun := run.invariant
    (fun es m => (sync = true → m.place.Whole) ∧
      ((sync = true ∨ ∀ e ∈ es, ¬ e.IsOutage) →
        ∃ l, Steps DurableLog.Step Log.empty (es.map Event.change) l ∧
          Tracks c (c.load p.contents) m l))
    ⟨fun _ => hp.whole, fun _ => ⟨Log.empty, .nil _, hstart⟩⟩
    (fun es m e m' _ ih hstep => by
      refine ⟨fun hsync => ?_, fun hsafe => ?_⟩
      · subst hsync
        exact (ih.1 rfl).step hstep
      · obtain ⟨l, hl, ht⟩ := ih.2 (hsafe.imp_right
          (fun hnone f hf => hnone f (List.mem_append_left _ hf)))
        have hsync : e.IsOutage → sync = true ∧ m.place.Whole := fun he =>
          have hyes := hsafe.resolve_right (fun hnone => hnone e (by simp) he)
          ⟨hyes, ih.1 hyes⟩
        obtain ⟨l', hchange, ht'⟩ := ht.step hlaw hsync hstep
        refine ⟨l', ?_, ht'⟩
        rw [List.map_append]
        exact .snoc hl hchange)
  exact hrun.2 hsafe

/-- Without a sync, what an outage leaves is a cut of the file of some moment since the
last one. -/
theorem Tracks.frays (h : Tracks c init m l) (hout : m.place.Outage p') :
    ∃ kept contents n, kept <+: l.loose ∧
      c.load contents = (l.firm ++ kept).foldl c.apply init ∧
      p'.contents = contents.map (List.take n) := by
  obtain ⟨v, hv, n, hcut, _⟩ := hout.cut
  obtain ⟨kept, hkept, hload⟩ := h.versions v hv
  exact ⟨kept, _, n, hkept, hload, hcut⟩

end AtomicReplace
