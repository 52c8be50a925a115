import DistributedWal.WalContents

/-! # Reopening a WAL whose last write was interrupted

A crash leaves the active segment file as a prefix of what was written to it. The
reader accepts a file only when it ends exactly at the end of an entry, so recovery
succeeds for the cuts on a boundary and for no other.
-/
namespace WalTornWrite

open LittleEndianCodec WalEntry WalSegment WalEngine WalContents

/-- The entries that lie completely inside the first `n` bytes of their encoding. -/
def survivors : ℕ → List Entry → List Entry
  | _, [] => []
  | n, e :: es =>
    if headerSize + e.data.length ≤ n then
      e :: survivors (n - (headerSize + e.data.length)) es
    else []

/-- The directory after a crash: the active segment file is cut after `k` bytes. -/
def torn (w : Wal) (k : ℕ) : Dir :=
  { w.dir with
    bytes := Function.update w.dir.bytes w.active.id ((w.dir.bytes w.active.id).take k) }

def sealedBytes (w : Wal) : ℕ := (w.sealed.map (fun id => (w.dir.bytes id).length)).sum

section

variable [Crc32]

/-- A run of appends: the acknowledged entries and the WAL after them. -/
def appendAll (w : Wal) : List Bytes → List Entry × Wal
  | [] => ([], w)
  | data :: rest =>
    match w.append data with
    | (.error _, w) => appendAll w rest
    | (.ok sequence, w) =>
      let (acks, w) := appendAll w rest
      (⟨sequence, data⟩ :: acks, w)

def written (config : WalConfig) (ds : List Bytes) : Except WalError (List Entry × Wal) :=
  (Wal.open config Dir.empty).map (appendAll · ds)

/-- After the appends of `ds` and a cut at `k`, the directory opens, holds the entries
completely inside the surviving bytes, and takes the appends of `ds'` after them. -/
def RecoversTorn (config : WalConfig) (ds : List Bytes) (k : ℕ) (ds' : List Bytes) : Prop :=
  ∃ acks w w₁, written config ds = .ok (acks, w) ∧
    Wal.open config (torn w k) = .ok w₁ ∧
    w₁.readFrom 1 = .ok (survivors (sealedBytes w + k) acks) ∧
    (appendAll w₁ ds').1.map Entry.sequence =
      List.range' ((survivors (sealedBytes w + k) acks).length + 1)
        (appendAll w₁ ds').1.length ∧
    (appendAll w₁ ds').2.readFrom 1 =
      .ok (survivors (sealedBytes w + k) acks ++ (appendAll w₁ ds').1)

/-- The cut falls between two entries, and no payload involved is longer than its
length field can say. -/
def CutsBetween (config : WalConfig) (ds : List Bytes) (k : ℕ) (ds' : List Bytes) : Prop :=
  ∃ acks w, written config ds = .ok (acks, w) ∧
    (encodeAll (survivors (sealedBytes w + k) acks)).length =
      sealedBytes w + min k (w.dir.bytes w.active.id).length ∧
    (∀ e ∈ survivors (sealedBytes w + k) acks, e.data.length < 2 ^ 32) ∧
    ∀ data ∈ ds', headerSize + data.length ≤ config.maxSegmentBytes → data.length < 2 ^ 32

theorem survivors_append {es fs : List Entry} {n : ℕ} :
    survivors ((encodeAll es).length + n) (es ++ fs) = es ++ survivors n fs := by
  induction es with
  | nil => simp
  | cons e es ih =>
    have hlen : (encodeAll (e :: es)).length =
        headerSize + e.data.length + (encodeAll es).length := by
      simp [Entry.encoded]
    rw [hlen, List.cons_append, survivors, if_pos (by omega),
      show headerSize + e.data.length + (encodeAll es).length + n -
        (headerSize + e.data.length) = (encodeAll es).length + n by omega, ih]
    rfl

/-- The surviving bytes are the surviving entries and a proper part of the next one. -/
theorem take_encodeAll (n : ℕ) (es : List Entry) :
    ∃ rest, (encodeAll es).take n = encodeAll (survivors n es) ++ rest ∧
      survivors n es <+: es ∧
      (rest ≠ [] → ∃ e ∈ es, rest <+: e.encoded ∧ rest.length < e.encoded.length) := by
  induction es generalizing n with
  | nil => exact ⟨[], by simp [survivors], by simp [survivors], fun h => absurd rfl h⟩
  | cons e es ih =>
    have hlen : e.encoded.length = headerSize + e.data.length := encode_length _ _
    rw [survivors]
    split
    · rename_i hn
      obtain ⟨rest, htake, hpre, hrest⟩ := ih (n - (headerSize + e.data.length))
      refine ⟨rest, ?_, ?_, ?_⟩
      · rw [encodeAll_cons, List.take_append, List.take_of_length_le (by omega), hlen, htake,
          encodeAll_cons, List.append_assoc]
      · exact List.cons_prefix_cons.mpr ⟨rfl, hpre⟩
      · intro hne
        obtain ⟨f, hf, h⟩ := hrest hne
        exact ⟨f, List.mem_cons_of_mem e hf, h⟩
    · rename_i hn
      refine ⟨e.encoded.take n, ?_, List.nil_prefix, fun _ => ⟨e, by simp, ?_, ?_⟩⟩
      · rw [encodeAll_cons, List.take_append_of_le_length (by omega)]
        rfl
      · exact List.take_prefix n e.encoded
      · rw [List.length_take]
        omega

/-- Whatever reads from a proper part of an entry starts with that entry's sequence. -/
theorem readLoop_part {e : Entry} (he : e.sequence < 2 ^ 64) {rest : Bytes} (hne : rest ≠ [])
    (hpart : rest <+: e.encoded) {offset : ℕ} {xs : List Entry}
    (h : readLoop rest offset = .ok xs) : ∃ x ∈ xs, x.sequence = e.sequence := by
  obtain ⟨hrest, hfits⟩ := readLoop_sound h
  cases xs with
  | nil => exact absurd hrest hne
  | cons x xs =>
    refine ⟨x, by simp, ?_⟩
    -- both start with the eight bytes of their sequence
    have hx : rest.take 8 = leBytes 8 x.sequence := by
      rw [hrest, encodeAll_cons, Entry.encoded, encode, List.append_assoc, take_leBytes]
    have hen : e.encoded.take 8 = leBytes 8 e.sequence := by
      rw [Entry.encoded, encode, take_leBytes]
    have hlen : 8 ≤ rest.length := by
      rw [hrest]
      simp [Entry.encoded, headerSize]
      omega
    obtain ⟨tail, htail⟩ := hpart
    have heq : leBytes 8 x.sequence = leBytes 8 e.sequence := by
      rw [← hx, ← hen, ← htail, List.take_append_of_le_length hlen]
    have hval := congrArg leValue heq
    rwa [leValue_leBytes_of_lt (hfits x (by simp)).1, leValue_leBytes_of_lt he] at hval

variable {w : Wal} {c : Contents}

/-- The appends of a list: what is acknowledged is what fits in a segment. -/
theorem appendAll_layout (ds : List Bytes) (h : Layout w c) :
    ∃ c', Layout (appendAll w ds).2 c' ∧ c'.entries = c.entries ++ (appendAll w ds).1 ∧
      (appendAll w ds).2.config = w.config ∧
      (appendAll w ds).2.nextSequence = w.nextSequence + (appendAll w ds).1.length ∧
      (appendAll w ds).1.map Entry.sequence =
        List.range' w.nextSequence (appendAll w ds).1.length ∧
      (appendAll w ds).1.map Entry.data =
        ds.filter (fun d => headerSize + d.length ≤ w.config.maxSegmentBytes) := by
  induction ds generalizing w c with
  | nil => exact ⟨c, h, by simp [appendAll], rfl, rfl, rfl, rfl⟩
  | cons data ds ih =>
    by_cases hfit : headerSize + data.length ≤ w.config.maxSegmentBytes
    · obtain ⟨v, hv, hl, hm, hn⟩ := append_accepted_layout h data hfit
      obtain ⟨c', hl', hc', hcfg, hnext, hseq, hdata⟩ := ih hl
      simp only [appendAll, hv]
      refine ⟨c', hl', ?_, hcfg.trans hm.config, ?_, ?_, ?_⟩
      · rw [hc', grown_entries, List.append_assoc]
        rfl
      · rw [hnext, hn, List.length_cons]
        omega
      · rw [List.map_cons, hseq, hn, List.length_cons, List.range'_succ]
      · rw [List.map_cons, hdata, hm.config, List.filter_cons_of_pos (by simpa using hfit)]
    · obtain ⟨v, hv, hl, hm, hn⟩ := append_rejected_layout h data hfit
      obtain ⟨c', hl', hc', hcfg, hnext, hseq, hdata⟩ := ih hl
      simp only [appendAll, hv]
      refine ⟨c', hl', ?_, hcfg.trans hm.config, ?_, ?_, ?_⟩
      · rw [hc', rotated_entries]
      · rw [hnext, hn]
      · rw [hseq, hn]
      · rw [hdata, hm.config, List.filter_cons_of_neg (by simpa using hfit)]

theorem written_layout (config : WalConfig) (ds : List Bytes) :
    ∃ acks w c, written config ds = .ok (acks, w) ∧ Layout w c ∧ c.entries = acks ∧
      w.config = config ∧ w.nextSequence = acks.length + 1 ∧ acks.length ≤ ds.length := by
  obtain ⟨w₀, hopen, hst, hcfg, hn, _⟩ := open_empty config
  obtain ⟨c, hl, hc, hcfg', hnext, _, hdata⟩ := appendAll_layout ds hst.toLayout
  refine ⟨_, _, c, by rw [written, hopen]; rfl, hl, ?_, hcfg'.trans hcfg, ?_, ?_⟩
  · simpa [Contents.entries] using hc
  · rw [hnext, hn]
    omega
  · have := congrArg List.length hdata
    rw [List.length_map] at this
    rw [this]
    exact List.length_filter_le _ _

theorem sealedBytes_eq (h : Layout w c) :
    sealedBytes w = (encodeAll (c.sealed.map Prod.snd).flatten).length := by
  have hbytes := h.sealed_bytes
  rw [sealedBytes, h.sealed_ids]
  generalize c.sealed = ps at hbytes
  induction ps with
  | nil => rfl
  | cons p ps ih =>
    have ih := ih (fun q hq => hbytes q (List.mem_cons_of_mem p hq))
    simp only [List.map_cons, List.sum_cons, List.flatten_cons, encodeAll_append,
      List.length_append, hbytes p (by simp), ih]

theorem survivors_entries (h : Layout w c) (k : ℕ) :
    survivors (sealedBytes w + k) c.entries =
      (c.sealed.map Prod.snd).flatten ++ survivors k c.active := by
  rw [sealedBytes_eq h, Contents.entries, survivors_append]

/-- A cut on a boundary leaves a layout again, of the surviving entries. -/
theorem torn_layout (h : Layout w c) {k : ℕ}
    (hcut : (encodeAll c.active).take k = encodeAll (survivors k c.active)) :
    Layout { w with
        dir := torn w k
        active := { w.active with size := (encodeAll (survivors k c.active)).length }
        nextSequence := (w.nextSequence - c.active.length) + (survivors k c.active).length }
      ⟨c.sealed, survivors k c.active⟩ := by
  obtain ⟨_, _, hpre, _⟩ := take_encodeAll k c.active
  constructor
  · exact h.sealed_ids
  · exact h.ascending
  · exact h.files
  · intro p hp
    have hne : p.1 ≠ w.active.id := Nat.ne_of_lt (h.sealed_lt hp)
    simpa [torn, Function.update_of_ne hne] using h.sealed_bytes p hp
  · simp [torn, h.active_bytes, hcut]
  · rfl
  · exact h.flushed
  · exact h.cap
  · obtain ⟨first, hf, hn, hseq⟩ := h.numbered
    obtain ⟨tail, htail⟩ := hpre
    have hlen : c.active.length = (survivors k c.active).length + tail.length := by
      rw [← List.length_append, htail]
    have hpre' : Contents.entries ⟨c.sealed, survivors k c.active⟩ <+: c.entries :=
      ⟨tail, by simp [Contents.entries, htail]⟩
    refine ⟨first, hf, ?_, ?_⟩
    · simp only [Contents.entries, List.length_append] at hn ⊢
      omega
    · have := congrArg (List.take (Contents.entries ⟨c.sealed, survivors k c.active⟩).length) hseq
      rw [← List.map_take, ← List.prefix_iff_eq_take.mp hpre',
        List.take_range'_of_length_ge hpre'.length_le] at this
      exact this

theorem torn_opens (h : Layout w c) {k : ℕ} {w₁ : Wal}
    (hopen : Wal.open w.config (torn w k) = .ok w₁) :
    w₁.dir = torn w k ∧ w₁.sealed = w.sealed ∧ w₁.active.id = w.active.id := by
  have hlist : listSegments (torn w k) = c.ids w.active.id :=
    listSegments_eq h.ascending h.files
  have hlast : (c.ids w.active.id).getLast? = some w.active.id := by simp [Contents.ids]
  have hinit : (c.ids w.active.id).dropLast = w.sealed := by
    simp [Contents.ids, h.sealed_ids]
  have hmem : w.active.id ∈ (torn w k).ids := h.mem_files.mpr (Or.inr rfl)
  rw [Wal.open, hlist, hlast] at hopen
  simp only [hinit, Segment.openForAppend, if_pos hmem] at hopen
  split at hopen
  · cases hopen
  · cases hopen
    exact ⟨rfl, rfl, rfl⟩

theorem readEntries_fits {d : Dir} {id : ℕ} {es : List Entry}
    (h : readEntries d id = .ok es) : ∀ e ∈ es, e.Fits := by
  unfold readEntries at h
  split at h
  · exact ((readRaw_ok_iff _ _).mp h).2
  · cases h

theorem readSealed_fits {d : Dir} {ids : List ℕ} {es : List Entry}
    (h : readSealed d ids = .ok es) : ∀ e ∈ es, e.Fits := by
  induction ids generalizing es with
  | nil =>
    cases h
    simp
  | cons id ids ih =>
    rw [readSealed] at h
    split at h
    · cases h
    · rename_i front hfront
      cases hrest : readSealed d ids with
      | error err =>
        rw [hrest] at h
        cases h
      | ok back =>
        rw [hrest] at h
        cases h
        intro e he
        rcases List.mem_append.mp he with he | he
        · exact readEntries_fits hfront e he
        · exact ih hrest e he

/-- Only entries that the format can hold are ever returned. -/
theorem readFrom_fits {k : ℕ} {es : List Entry} (h : w.readFrom k = .ok es) :
    ∀ e ∈ es, e.Fits := by
  rw [Wal.readFrom] at h
  split at h
  · cases h
  · rename_i front hfront
    split at h
    · cases h
    · rename_i back hback
      cases h
      intro e he
      rcases List.mem_append.mp (List.mem_of_mem_filter he) with he | he
      · exact readSealed_fits hfront e he
      · exact readEntries_fits hback e he

/-- The entries held after a cut at `k`. -/
def heldAfter (c : Contents) (k : ℕ) : List Entry :=
  Contents.entries ⟨c.sealed, survivors k c.active⟩

theorem heldAfter_subset (c : Contents) (k : ℕ) {e : Entry} (he : e ∈ heldAfter c k) :
    e ∈ c.entries := by
  obtain ⟨_, _, hpre, _⟩ := take_encodeAll k c.active
  rcases List.mem_append.mp he with he | he
  · exact List.mem_append_left _ he
  · exact List.mem_append_right _ (hpre.subset he)

/-- When what is read back is what survived, the cut fell on a boundary. -/
theorem boundary_of_read (h : Layout w c) {k : ℕ} {w₁ : Wal}
    (hnext : w.nextSequence ≤ 2 ^ 64) (hopen : Wal.open w.config (torn w k) = .ok w₁)
    (hread : w₁.readFrom 1 = .ok (heldAfter c k)) :
    (encodeAll c.active).take k = encodeAll (survivors k c.active) := by
  obtain ⟨hdir, hsealed, hactive⟩ := torn_opens h hopen
  have hfits := readFrom_fits hread
  obtain ⟨rest, htake, _, hpart⟩ := take_encodeAll k c.active
  have hfront : readSealed (torn w k) w.sealed = .ok (c.sealed.map Prod.snd).flatten := by
    rw [h.sealed_ids]
    refine readSealed_eq (fun p hp => readEntries_encodeAll ?_ ?_ ?_)
    · exact h.mem_files.mpr (Or.inl ⟨p, hp, rfl⟩)
    · have hne : p.1 ≠ w.active.id := Nat.ne_of_lt (h.sealed_lt hp)
      simpa [torn, Function.update_of_ne hne] using h.sealed_bytes p hp
    · intro e he
      exact hfits e (List.mem_append_left _
        (List.mem_flatten.mpr ⟨p.2, List.mem_map_of_mem hp, he⟩))
  have hback : readEntries (torn w k) w.active.id =
      (readLoop rest (encodeAll (survivors k c.active)).length).map
        (survivors k c.active ++ ·) := by
    have hbytes : (torn w k).bytes w.active.id = encodeAll (survivors k c.active) ++ rest := by
      simp [torn, h.active_bytes, htake]
    have hmem : w.active.id ∈ (torn w k).ids := h.mem_files.mpr (Or.inr rfl)
    rw [readEntries, if_pos hmem, hbytes, readRaw,
      readLoop_encodeAll_append (fun e he => hfits e (List.mem_append_right _ he))]
    simp
  have hpos : ∀ e ∈ c.entries, 1 ≤ e.sequence ∧ e.sequence < 2 ^ 64 := fun e he =>
    ⟨(h.numbered.bounds he).1, (h.numbered.bounds he).2.trans_le hnext⟩
  rw [Wal.readFrom, hdir, hsealed, hactive, hfront, hback] at hread
  by_cases hne : rest = []
  · rw [htake, hne, List.append_nil]
  · exfalso
    obtain ⟨e, he, hpre, _⟩ := hpart hne
    have hpos_e := hpos e (List.mem_append_right _ he)
    cases hrest : readLoop rest (encodeAll (survivors k c.active)).length with
    | error err =>
      rw [hrest] at hread
      cases hread
    | ok xs =>
      rw [hrest] at hread
      obtain ⟨x, hx, hseq⟩ := readLoop_part hpos_e.2 hne hpre hrest
      -- the part of an entry would be read as an entry of its own
      have hall := Except.ok.inj hread
      have hkeep : (heldAfter c k).filter (fun e => 1 ≤ e.sequence) = heldAfter c k := by
        refine List.filter_eq_self.mpr (fun f hf => ?_)
        exact decide_eq_true (hpos f (heldAfter_subset c k hf)).1
      have hassoc : (c.sealed.map Prod.snd).flatten ++ (survivors k c.active ++ xs) =
          heldAfter c k ++ xs := by
        simp [heldAfter, Contents.entries]
      rw [hassoc, List.filter_append, hkeep] at hall
      have hnil := List.append_right_eq_self.mp hall
      exact List.filter_eq_nil_iff.mp hnil x hx (decide_eq_true (hseq ▸ hpos_e.1))

/-- After a cut on a boundary the directory opens with what survived. -/
theorem torn_recovers (h : Layout w c) {k : ℕ} (hnext : w.nextSequence = c.entries.length + 1)
    (hcount : c.entries.length + 1 < 2 ^ 64)
    (hcut : (encodeAll c.active).take k = encodeAll (survivors k c.active))
    (hshort : ∀ e ∈ heldAfter c k, e.data.length < 2 ^ 32) :
    ∃ w₁, Wal.open w.config (torn w k) = .ok w₁ ∧
      Stores w₁ ⟨c.sealed, survivors k c.active⟩ ∧ w₁.config = w.config ∧
      w₁.nextSequence = (heldAfter c k).length + 1 := by
  have hfits : ∀ e ∈ heldAfter c k, e.Fits := by
    intro e he
    have := (h.numbered.bounds (heldAfter_subset c k he)).2
    exact ⟨by omega, hshort e he⟩
  obtain ⟨w₁, hopen, hst, hcfg, _, _, _, hn⟩ := open_spec ⟨torn_layout h hcut, hfits⟩
  refine ⟨w₁, hopen, hst, hcfg, ?_⟩
  have hlen : (heldAfter c k).length + c.active.length =
      c.entries.length + (survivors k c.active).length := by
    simp only [heldAfter, Contents.entries, List.length_append]
    omega
  rw [hn]
  split
  · rename_i hnil
    have hz : (heldAfter c k).length = 0 := by simpa [heldAfter] using hnil
    omega
  · have : c.active.length ≤ c.entries.length := by simp [Contents.entries]
    dsimp only
    omega

/-- Recovery from a torn write works exactly for the cuts between two entries. -/
theorem recovers_torn_iff (config : WalConfig) (ds : List Bytes) (k : ℕ) (ds' : List Bytes)
    (hcount : ds.length + ds'.length + 1 < 2 ^ 64) :
    RecoversTorn config ds k ds' ↔ CutsBetween config ds k ds' := by
  obtain ⟨acks, w, c, hw, hl, rfl, hcfg, hnext, hle⟩ := written_layout config ds
  have hheld : survivors (sealedBytes w + k) c.entries = heldAfter c k :=
    survivors_entries hl k
  constructor
  · rintro ⟨acks, v, w₁, hv, hopen, hread, _, hread'⟩
    rw [hw] at hv
    cases hv
    rw [hheld] at hread hread'
    have hcut := boundary_of_read hl (by omega) (hcfg ▸ hopen) hread
    have hshort : ∀ e ∈ heldAfter c k, e.data.length < 2 ^ 32 :=
      fun e he => (readFrom_fits hread e he).2
    refine ⟨_, _, hw, ?_, by rwa [hheld], ?_⟩
    · rw [hheld, heldAfter, Contents.entries, encodeAll_append, List.length_append,
        ← sealedBytes_eq hl, ← hcut, List.length_take, hl.active_bytes]
    · intro data hdata hfit
      obtain ⟨v, hv, hst, hcfg', _⟩ := torn_recovers hl hnext (by omega) hcut hshort
      rw [hcfg, hopen] at hv
      cases hv
      obtain ⟨_, _, _, _, _, _, hall⟩ := appendAll_layout ds' hst.toLayout
      have hmem : data ∈ (appendAll w₁ ds').1.map Entry.data := by
        rw [hall, hcfg', hcfg]
        exact List.mem_filter.mpr ⟨hdata, decide_eq_true hfit⟩
      obtain ⟨e, he, rfl⟩ := List.mem_map.mp hmem
      exact (readFrom_fits hread' e (List.mem_append_right _ he)).2
  · rintro ⟨acks, v, hv, hlen, hshort, hlater⟩
    rw [hw] at hv
    cases hv
    rw [hheld] at hlen hshort
    have hcut : (encodeAll c.active).take k = encodeAll (survivors k c.active) := by
      obtain ⟨rest, htake, _, _⟩ := take_encodeAll k c.active
      have htotal := congrArg List.length htake
      rw [heldAfter, Contents.entries, encodeAll_append, List.length_append,
        ← sealedBytes_eq hl, hl.active_bytes] at hlen
      rw [List.length_append, List.length_take] at htotal
      dsimp only at hlen
      have hnil : rest = [] := List.length_eq_zero_iff.mp (by omega)
      rw [htake, hnil, List.append_nil]
    obtain ⟨w₁, hopen, hst, hcfg', hn₁⟩ := torn_recovers hl hnext (by omega) hcut hshort
    obtain ⟨c', hl', hc', _, hn₂, hseq, hall⟩ := appendAll_layout ds' hst.toLayout
    have hcount' : (appendAll w₁ ds').1.length ≤ ds'.length := by
      have := congrArg List.length hall
      rw [List.length_map] at this
      rw [this]
      exact List.length_filter_le _ _
    have hheldlen : (heldAfter c k).length ≤ c.entries.length := by
      obtain ⟨_, _, hpre, _⟩ := take_encodeAll k c.active
      have := hpre.length_le
      simp only [heldAfter, Contents.entries, List.length_append]
      omega
    have hfits : ∀ e ∈ c'.entries, e.Fits := by
      intro e he
      have hbound := (hl'.numbered.bounds he).2
      refine ⟨by omega, ?_⟩
      rw [hc'] at he
      rcases List.mem_append.mp he with he | he
      · exact hshort e he
      · have hmem : e.data ∈ (appendAll w₁ ds').1.map Entry.data := List.mem_map_of_mem he
        rw [hall, hcfg', hcfg] at hmem
        obtain ⟨hin, hfit⟩ := List.mem_filter.mp hmem
        exact hlater _ hin (of_decide_eq_true hfit)
    refine ⟨_, _, w₁, hw, hcfg ▸ hopen, ?_, ?_, ?_⟩
    · rw [hheld]
      exact hst.readFrom_one
    · rw [hheld, hseq, hn₁]
    · rw [hheld, Stores.readFrom_one ⟨hl', hfits⟩, hc']
      rfl

end

/-- Two entries of 17 bytes in one segment, cut between them, and one more append. -/
theorem recovers_torn_iff_two_entries : @RecoversTorn ieee ⟨64, true⟩ [[7], [8]] 17 [[9]] := by
  let _ : Crc32 := ieee
  apply (recovers_torn_iff ⟨64, true⟩ [[7], [8]] 17 [[9]] (by decide)).mpr
  obtain ⟨w₀, hopen, hst, hc₀, hn₀, _⟩ := open_empty ⟨64, true⟩
  have hsmall : headerSize + ([7] : Bytes).length ≤ 64 := by decide
  obtain ⟨w₁, happ₁, hl₁, hm₁, hn₁⟩ := append_accepted_layout hst.toLayout [7]
    (by rw [hc₀]; exact hsmall)
  have hc₁ := hm₁.config.trans hc₀
  obtain ⟨w, happ, hl, _⟩ := append_accepted_layout hl₁ [8] (by rw [hc₁]; exact hsmall)
  have hfirst : Contents.grown ⟨[], []⟩ w₀ [7] = ⟨[], [⟨1, [7]⟩]⟩ := by
    rw [Contents.grown, hst.toLayout.wouldOverflow, hc₀, hn₀]
    rfl
  rw [hfirst] at hl₁ hl
  have hboth : Contents.grown ⟨[], [⟨1, [7]⟩]⟩ w₁ [8] = ⟨[], [⟨1, [7]⟩, ⟨2, [8]⟩]⟩ := by
    rw [Contents.grown, hl₁.wouldOverflow, hc₁, hn₁, hn₀,
      if_neg (by simp [Entry.encoded, headerSize])]
    rfl
  rw [hboth] at hl
  have hw : written ⟨64, true⟩ [[7], [8]] = .ok ([⟨1, [7]⟩, ⟨2, [8]⟩], w) := by
    rw [written, hopen]
    simp [Except.map, appendAll, happ₁, happ, hn₁, hn₀]
  have hheld := survivors_entries hl 17
  rw [show Contents.entries ⟨[], [⟨1, [7]⟩, ⟨2, [8]⟩]⟩ = [⟨1, [7]⟩, ⟨2, [8]⟩] from rfl] at hheld
  refine ⟨_, w, hw, ?_, ?_, by decide⟩
  · rw [hheld, sealedBytes_eq hl, hl.active_bytes]
    simp [survivors, Entry.encoded, headerSize]
  · rw [hheld]
    simp [survivors, headerSize]

/-- One entry, cut after its first byte: the directory does not open any more. -/
theorem torn_header_unrecoverable :
    ¬ @RecoversTorn ieee ⟨64, true⟩ [[7]] 1 [] := by
  let _ : Crc32 := ieee
  rintro ⟨acks, v, w₁, hv, hopen₁, hread, _⟩
  obtain ⟨w, hopen, hst, hc, hn, _⟩ := open_empty ⟨64, true⟩
  obtain ⟨w', happ, hl, hm, hn'⟩ := append_accepted_layout hst.toLayout [7]
    (by rw [hc]; decide)
  have hgrown : Contents.grown ⟨[], []⟩ w [7] = ⟨[], [⟨1, [7]⟩]⟩ := by
    simp [Contents.grown, Segment.wouldOverflow, hst.size, hst.cap, hc, hn, headerSize,
      Contents.appended]
  rw [hgrown] at hl
  have hw : written ⟨64, true⟩ [[7]] = .ok ([⟨1, [7]⟩], w') := by
    rw [written, hopen]
    simp [Except.map, appendAll, happ, hn]
  rw [hw] at hv
  cases hv
  have hheld := survivors_entries hl 1
  rw [show Contents.entries ⟨[], [⟨1, [7]⟩]⟩ = [⟨1, [7]⟩] from rfl] at hheld
  rw [hheld] at hread
  have hcut := boundary_of_read hl (by rw [hn', hn]; decide)
    (by rw [hm.config, hc]; exact hopen₁) hread
  have hlen := congrArg List.length hcut
  simp [survivors, Entry.encoded, headerSize] at hlen

end WalTornWrite
