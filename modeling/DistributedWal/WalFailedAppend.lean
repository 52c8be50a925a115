import DistributedWal.WalFaults
import DistributedWal.WalLifetime
import DistributedWal.WalOpenNumbering

/-! # An append that fails

An append that fails before anything of it is kept leaves no trace. A failure to create
the next segment file leaves the active segment among the sealed ones; after a failed
flush or sync the entry is in the file or in the buffer, under a sequence that the next
append uses again.
-/
namespace WalFailedAppend

open LittleEndianCodec WalEntry WalSegment WalEngine WalContents WalLifetime WalFaults
open WalOpenNumbering LabelledRuns

/-- What fails is the sync that opens a rotation, or nothing of the entry is kept: it fits no
segment, or its write fails before the first byte. -/
def Harmless (w : Wal) (f : AppendFaults) (data : Bytes) : Prop :=
  let due := w.active.wouldOverflow (headerSize + data.length)
  due = true ∧ (f.rotateFlush ≠ none ∨ f.rotateSync = true) ∨
    (due = true → f.create = false) ∧
      (headerSize + data.length > w.config.maxSegmentBytes ∨ f.write = some 0)

theorem create_new {d : Dir} {id : ℕ} (h : id ∉ d.ids) (maxBytes : ℕ) :
    Segment.create d id maxBytes = .ok (⟨id, [], 0, maxBytes⟩,
      { d with ids := insert id d.ids, bytes := Function.update d.bytes id [] }) := by
  rw [Segment.create, if_neg h]

variable [Crc32]

/-- Successful appends and truncations. An append needs room in the sequence counter. -/
inductive Later : Wal → Wal → Prop where
  | refl (w : Wal) : Later w w
  | append {w v v' : Wal} {data : Bytes} {sequence : ℕ} : Later w v →
      v.nextSequence + 1 < 2 ^ 64 → v.append data = (.ok sequence, v') → Later w v'
  | truncate {w v v' : Wal} {b : ℕ} : Later w v → v.truncateBefore b = (.ok (), v') →
      Later w v'

/-- Reading returns strictly increasing sequences, and no truncation touches the entries of
the active segment. -/
structure Sound (w : Wal) : Prop where
  increasing : ∃ es, w.readFrom 1 = .ok es ∧ (es.map Entry.sequence).Pairwise (· < ·)
  active : ∀ b, readEntries (w.truncateBefore b).2.dir w.active.id =
    readEntries w.dir w.active.id

structure NoTrace (w w' : Wal) : Prop where
  reads : ∀ k, w'.readFrom k = w.readFrom k
  next : w'.nextSequence = w.nextSequence
  active : w'.active.id ∉ w'.sealed
  later : ∀ v, Later w' v → Sound v

section

variable {w w' : Wal} {c : Contents}

theorem stores_sound (h : Stores w c) : Sound w := by
  refine ⟨⟨_, h.readFrom_one, h.numbered.ascending⟩, ?_⟩
  intro b
  obtain ⟨v, htr, hst, _, _, hactive⟩ := truncateBefore_spec h b
  rw [htr, h.read_active]
  have hread := hst.read_active
  rw [hactive] at hread
  exact hread

theorem active_not_sealed (h : Stores w c) : w.active.id ∉ w.sealed := by
  rw [h.sealed_ids]
  intro hmem
  obtain ⟨p, hp, hid⟩ := List.mem_map.mp hmem
  exact Nat.ne_of_lt (h.sealed_lt hp) hid

/-- A WAL that stores its contents keeps doing so, when no payload it accepts is too long
for the length field. -/
theorem Later.stores (h : Later w w') (hst : Stores w c)
    (hmax : w.config.maxSegmentBytes < headerSize + 2 ^ 32) :
    ∃ c', Stores w' c' ∧ w'.config = w.config := by
  induction h with
  | refl => exact ⟨c, hst, rfl⟩
  | append _ hroom happ ih =>
    obtain ⟨c₁, hst₁, hcfg⟩ := ih
    have hfit := append_ok_fits hst₁ happ
    obtain ⟨v, hv, hst₂, hm, _⟩ := append_accepted hst₁ _ (by rw [hcfg] at hfit; omega)
      (by omega) hfit
    rw [hv] at happ
    cases happ
    exact ⟨_, hst₂, hm.config.trans hcfg⟩
  | truncate _ htr ih =>
    obtain ⟨c₁, hst₁, hcfg⟩ := ih
    obtain ⟨v, hv, hst₂, hm, _⟩ := truncateBefore_spec hst₁ _
    rw [hv] at htr
    cases htr
    exact ⟨_, hst₂, hm.config.trans hcfg⟩

/-- The same contents and the same counter: no trace. -/
theorem noTrace_of_stores {c' : Contents} (h : Stores w c) (h' : Stores w' c')
    (hentries : c'.entries = c.entries) (hnext : w'.nextSequence = w.nextSequence)
    (hmax : w'.config.maxSegmentBytes < headerSize + 2 ^ 32) : NoTrace w w' := by
  refine ⟨?_, hnext, active_not_sealed h', ?_⟩
  · intro k
    rw [h'.readFrom, h.readFrom, hentries]
  · intro v hv
    obtain ⟨_, hst, _⟩ := hv.stores h' hmax
    exact stores_sound hst

theorem readEntries_of_mem {d : Dir} {id : ℕ} {bs : Bytes} (hid : id ∈ d.ids)
    (hbytes : d.bytes id = bs) : readEntries d id = readRaw bs := by
  rw [readEntries, if_pos hid, hbytes]

theorem readFrom_parts {v : Wal} {k : ℕ} {es : List Entry} (h : v.readFrom k = .ok es) :
    ∃ front back, readSealed v.dir v.sealed = .ok front ∧
      readEntries v.dir v.active.id = .ok back ∧
      es = (front ++ back).filter (fun e => k ≤ e.sequence) := by
  rw [Wal.readFrom] at h
  split at h
  · cases h
  · rename_i front hfront
    split at h
    · cases h
    · rename_i back hback
      cases h
      exact ⟨front, back, hfront, hback, rfl⟩

theorem readSealed_last {d : Dir} {ids : List ℕ} {id : ℕ} {front es : List Entry}
    (h : readSealed d (ids ++ [id]) = .ok front) (hid : readEntries d id = .ok es) :
    ∃ old, front = old ++ es := by
  rw [readSealed_append] at h
  cases hids : readSealed d ids with
  | error err =>
    rw [hids] at h
    cases h
  | ok old =>
    rw [hids, readSealed, hid, readSealed] at h
    cases h
    exact ⟨old, by simp⟩

/-- Bytes after the entries of the active segment change what is read, whether or not they
parse. -/
theorem leaked_bytes_read (h : Stores w c) {junk : Bytes} (hne : junk ≠ [])
    (hsealed : w'.sealed = w.sealed) (hid : w'.active.id = w.active.id)
    (hdir : w'.dir = w.dir.appendBytes w.active.id junk) : w'.readFrom 0 ≠ w.readFrom 0 := by
  intro hread
  rw [h.readFrom] at hread
  obtain ⟨front, back, hfront, hback, hentries⟩ := readFrom_parts hread
  have hsame : ∀ p ∈ c.sealed, readEntries w'.dir p.1 = .ok p.2 := by
    intro p hp
    have hold := h.read_sealed hp
    have hother : p.1 ≠ w.active.id := Nat.ne_of_lt (h.sealed_lt hp)
    rw [hdir, readEntries]
    simp only [Dir.appendBytes, Function.update_of_ne hother]
    exact hold
  rw [hsealed, h.sealed_ids, readSealed_eq hsame] at hfront
  cases hfront
  have hmem : w.active.id ∈ w.dir.ids := h.mem_files.mpr (Or.inr rfl)
  rw [hdir, hid, readEntries] at hback
  simp only [Dir.appendBytes, if_pos hmem, Function.update_self, h.active_bytes] at hback
  rw [readRaw, readLoop_encodeAll_append h.fits_active] at hback
  cases hmore : readLoop junk (0 + (encodeAll c.active).length) with
  | error err =>
    rw [hmore] at hback
    cases hback
  | ok more =>
    rw [hmore] at hback
    cases hback
    have hnil : more ≠ [] := by
      rintro rfl
      exact hne (readLoop_sound hmore).1
    simp only [Nat.zero_le, decide_true, List.filter_true, Contents.entries] at hentries
    have hlen := congrArg List.length hentries
    simp only [List.length_append] at hlen
    have := List.length_pos_iff.mpr hnil
    omega

/-- The active segment with an entry in its buffer that the counter does not know of. -/
def buffered (w : Wal) (data : Bytes) : Wal :=
  { w with active := { w.active with
      writer := encode w.nextSequence data
      size := w.active.size + (headerSize + data.length) } }

/-- A payload that fills a segment rotates: the buffered entry ends up in the sealed one. -/
theorem buffered_append (h : Stores w c) (data : Bytes) {payload : Bytes}
    (hpayload : headerSize + payload.length = w.config.maxSegmentBytes) :
    ∃ v, (buffered w data).append payload = (.ok w.nextSequence, v) ∧
      v.sealed = w.sealed ++ [w.active.id] ∧
      readEntries v.dir w.active.id =
        readRaw (encodeAll c.active ++ encode w.nextSequence data) ∧
      readEntries v.dir v.active.id = readRaw (encode w.nextSequence payload) := by
  have hover : (buffered w data).active.wouldOverflow (headerSize + payload.length) = true := by
    have h16 : headerSize = 16 := rfl
    simp only [buffered, Segment.wouldOverflow, h.cap, decide_eq_true_eq]
    omega
  have hnew : w.active.id + 1 ∉ w.dir.ids := by
    rw [h.mem_files]
    rintro (⟨p, hp, hid⟩ | hid)
    · have := h.sealed_lt hp
      omega
    · omega
  have hfits : ¬ headerSize + payload.length > w.config.maxSegmentBytes := by omega
  have hmem : w.active.id ∈ w.dir.ids := h.mem_files.mpr (Or.inr rfl)
  let sealedDir := w.dir.appendBytes w.active.id (encode w.nextSequence data)
  have hrot : (buffered w data).rotate = (.ok (), { w with
      active := ⟨w.active.id + 1, [], 0, w.config.maxSegmentBytes⟩
      sealed := w.sealed ++ [w.active.id]
      dir := { sealedDir with
        ids := insert (w.active.id + 1) sealedDir.ids
        bytes := Function.update sealedDir.bytes (w.active.id + 1) [] } }) := by
    simp only [Wal.rotate, Segment.sync, Segment.flush, buffered]
    rw [create_new (d := w.dir.appendBytes w.active.id (encode w.nextSequence data)) hnew]
  have happ : (buffered w data).append payload = (.ok w.nextSequence, { w with
      active := ⟨w.active.id + 1, [], headerSize + payload.length, w.config.maxSegmentBytes⟩
      sealed := w.sealed ++ [w.active.id]
      nextSequence := w.nextSequence + 1
      dir := Dir.appendBytes { sealedDir with
        ids := insert (w.active.id + 1) sealedDir.ids
        bytes := Function.update sealedDir.bytes (w.active.id + 1) [] } (w.active.id + 1)
        (encode w.nextSequence payload) }) := by
    have hnext : (buffered w data).nextSequence = w.nextSequence := rfl
    simp only [Wal.append, hnext, encode_length, if_pos hover, hrot, Wal.appendEncoded,
      Segment.append, Nat.zero_add, if_neg hfits, Segment.sync, ite_self, Segment.flush,
      List.nil_append]
  refine ⟨_, happ, rfl, ?_, ?_⟩
  · apply readEntries_of_mem (Finset.mem_insert_of_mem hmem)
    simp only [Dir.appendBytes, sealedDir]
    rw [Function.update_of_ne (Nat.ne_of_lt (Nat.lt_succ_self _)),
      Function.update_of_ne (Nat.ne_of_lt (Nat.lt_succ_self _)), Function.update_self,
      h.active_bytes]
  · apply readEntries_of_mem (Finset.mem_insert_self _ _)
    simp only [Dir.appendBytes, Function.update_self, List.nil_append]

/-- A payload of `len` bytes that continues, where the length field makes an entry end, with
two entries of sequence 1. -/
def overlong (len : ℕ) : Bytes :=
  List.replicate (len % 2 ^ 32) 0 ++
    (encode 1 [] ++ (encode 1 [] ++ List.replicate (len - len % 2 ^ 32 - 32) 0))

theorem overlong_length {len : ℕ} (hlen : 2 ^ 32 ≤ len) : (overlong len).length = len := by
  have h16 : headerSize = 16 := rfl
  simp only [overlong, List.length_append, List.length_replicate, encode_length,
    List.length_nil]
  omega

/-- The length field of a payload that is too long splits it in the wrong place. -/
theorem overlong_misread {sequence len : ℕ} (hlen : 2 ^ 32 ≤ len) {offset : ℕ}
    {es : List Entry} (h : readLoop (encode sequence (overlong len)) offset = .ok es) :
    [⟨1, []⟩, ⟨1, []⟩].Sublist es := by
  obtain ⟨hraw, hfits⟩ := readLoop_sound h
  cases es with
  | nil =>
    have := congrArg List.length hraw
    simp [headerSize] at this
  | cons x ys =>
    obtain ⟨_, hx⟩ := hfits x (by simp)
    -- the length fields agree, so the data of the first entry ends where the field says
    rw [encodeAll_cons, Entry.encoded, encode, encode] at hraw
    simp only [List.append_assoc] at hraw
    obtain ⟨_, hraw⟩ := List.append_inj hraw (by simp)
    obtain ⟨hcount, hraw⟩ := List.append_inj hraw (by simp)
    obtain ⟨_, hraw⟩ := List.append_inj hraw (by simp)
    have hcount : len % 2 ^ 32 = x.data.length := by
      have hval := leBytes_inj (Nat.mod_lt _ (by decide)) (Nat.mod_lt _ (by decide)) hcount
      rw [overlong_length hlen] at hval
      rw [← Nat.mod_eq_of_lt hx]
      exact hval
    obtain ⟨_, htail⟩ := List.append_inj hraw (by simpa using hcount)
    have hone : Entry.Fits ⟨1, []⟩ := ⟨by decide, by decide⟩
    have hys := readLoop_encodeAll (fun e he => hfits e (List.mem_cons_of_mem x he)) 0
    have htwo : encode 1 [] ++ (encode 1 [] ++ List.replicate (len - len % 2 ^ 32 - 32) 0) =
        encodeAll [⟨1, []⟩, ⟨1, []⟩] ++ List.replicate (len - len % 2 ^ 32 - 32) 0 := by
      simp [Entry.encoded]
    rw [← htail, htwo, readLoop_encodeAll_append (by simpa using hone)] at hys
    cases hrest : readLoop (List.replicate (len - len % 2 ^ 32 - 32) 0)
        (0 + (encodeAll [⟨1, []⟩, ⟨1, []⟩]).length) with
    | error err =>
      rw [hrest] at hys
      cases hys
    | ok zs =>
      rw [hrest] at hys
      cases hys
      exact (List.sublist_append_left _ zs).cons x

theorem readLoop_encodeAll_append_ok {es : List Entry} (hes : ∀ e ∈ es, e.Fits) {rest : Bytes}
    {offset : ℕ} {fs : List Entry} (h : readLoop (encodeAll es ++ rest) offset = .ok fs) :
    ∃ gs, readLoop rest (offset + (encodeAll es).length) = .ok gs ∧ fs = es ++ gs := by
  rw [readLoop_encodeAll_append hes] at h
  cases hrest : readLoop rest (offset + (encodeAll es).length) with
  | error err =>
    rw [hrest] at h
    cases h
  | ok gs =>
    rw [hrest] at h
    cases h
    exact ⟨gs, rfl, rfl⟩

/-- Two entries out of order in what is read. -/
theorem not_sound_of_pair {v : Wal} {x y : Entry} (hx : 1 ≤ x.sequence) (hy : 1 ≤ y.sequence)
    (hyx : y.sequence ≤ x.sequence)
    (hpair : ∀ front back, readSealed v.dir v.sealed = .ok front →
      readEntries v.dir v.active.id = .ok back → [x, y].Sublist (front ++ back)) :
    ¬ Sound v := by
  intro h
  obtain ⟨es, hread, hinc⟩ := h.increasing
  obtain ⟨front, back, hfront, hback, rfl⟩ := readFrom_parts hread
  have hsub := (hpair front back hfront hback).filter (fun e => decide (1 ≤ e.sequence))
  rw [List.filter_eq_self.mpr (by simp [hx, hy])] at hsub
  have hlt := hinc.sublist (hsub.map Entry.sequence)
  simp only [List.map_cons, List.map_nil, List.pairwise_cons, List.mem_singleton] at hlt
  have := hlt.1 _ rfl
  omega

/-- Where a payload can be too long for the length field, an append can put entries that
were never written before the ones that were. -/
theorem overlong_unsound (h : Stores w c) (hroom : w.nextSequence + 1 < 2 ^ 64)
    (hmax : ¬ w.config.maxSegmentBytes < headerSize + 2 ^ 32) :
    ∃ v, Later w v ∧ ¬ Sound v := by
  have hlen : 2 ^ 32 ≤ w.config.maxSegmentBytes - headerSize := by omega
  have hfit : headerSize + (overlong (w.config.maxSegmentBytes - headerSize)).length ≤
      w.config.maxSegmentBytes := by
    rw [overlong_length hlen]
    omega
  obtain ⟨v, happ, hlay, _⟩ := append_accepted_layout h.toLayout _ hfit
  refine ⟨v, Later.append (Later.refl w) hroom happ, ?_⟩
  apply not_sound_of_pair (x := ⟨1, []⟩) (y := ⟨1, []⟩) (le_refl 1) (le_refl 1) (le_refl 1)
  intro front back _ hback
  rw [readEntries_of_mem (hlay.mem_files.mpr (Or.inr rfl)) hlay.active_bytes] at hback
  have hold : ∃ old, (∀ e ∈ old, e.Fits) ∧
      (c.grown w (overlong (w.config.maxSegmentBytes - headerSize))).active =
        old ++ [⟨w.nextSequence, overlong (w.config.maxSegmentBytes - headerSize)⟩] := by
    rw [Contents.grown]
    split
    · exact ⟨[], by simp, rfl⟩
    · exact ⟨c.active, h.fits_active, rfl⟩
  obtain ⟨old, hfits, hactive⟩ := hold
  rw [hactive, encodeAll_append, readRaw] at hback
  obtain ⟨gs, hgs, rfl⟩ := readLoop_encodeAll_append_ok hfits hback
  simp only [encodeAll_cons, encodeAll_nil, List.append_nil, Entry.encoded] at hgs
  have hsub := overlong_misread hlen hgs
  exact hsub.trans ((List.sublist_append_right old gs).trans (List.sublist_append_right _ _))

/-- An entry that stays in the buffer is written to the file later, under a sequence that
another entry has by then. -/
theorem buffered_unsound (h : Stores w c) (hroom : w.nextSequence + 1 < 2 ^ 64) {data : Bytes}
    (hfit : headerSize + data.length ≤ w.config.maxSegmentBytes) :
    ∃ v, Later (buffered w data) v ∧ ¬ Sound v := by
  by_cases hmax : w.config.maxSegmentBytes < headerSize + 2 ^ 32
  · obtain ⟨payload, hpayload⟩ : ∃ payload : Bytes,
        headerSize + payload.length = w.config.maxSegmentBytes := by
      refine ⟨List.replicate (w.config.maxSegmentBytes - headerSize) 0, ?_⟩
      rw [List.length_replicate]
      omega
    obtain ⟨v, happ, hsealed, hlast, hactive⟩ := buffered_append h data hpayload
    refine ⟨v, Later.append (Later.refl _) hroom happ, ?_⟩
    have hpos : 1 ≤ w.nextSequence := h.numbered.pos
    apply not_sound_of_pair (x := ⟨w.nextSequence, data⟩) (y := ⟨w.nextSequence, payload⟩)
      hpos hpos (le_refl _)
    intro front back hfront hback
    have hfits : ∀ bs : Bytes, headerSize + bs.length ≤ w.config.maxSegmentBytes →
        Entry.Fits ⟨w.nextSequence, bs⟩ := by
      intro bs hbs
      exact ⟨Nat.lt_of_succ_lt hroom, by show bs.length < 2 ^ 32; omega⟩
    have hone : ∀ bs : Bytes, headerSize + bs.length ≤ w.config.maxSegmentBytes →
        encode w.nextSequence bs = encodeAll [⟨w.nextSequence, bs⟩] ∧
          ∀ e ∈ [(⟨w.nextSequence, bs⟩ : Entry)], e.Fits := by
      intro bs hbs
      exact ⟨by simp [Entry.encoded], by simpa using hfits bs hbs⟩
    obtain ⟨hback', hfitb⟩ := hone payload hpayload.le
    obtain ⟨hdata', hfitd⟩ := hone data hfit
    rw [hactive, hback', readRaw_encodeAll hfitb] at hback
    cases hback
    have hall : ∀ e ∈ c.active ++ [⟨w.nextSequence, data⟩], e.Fits := by
      intro e he
      rcases List.mem_append.mp he with he | he
      · exact h.fits_active e he
      · exact hfitd e he
    rw [hdata', ← encodeAll_append, readRaw_encodeAll hall] at hlast
    obtain ⟨old, hold⟩ := readSealed_last (hsealed ▸ hfront) hlast
    rw [hold]
    simp
  · have hlen : 2 ^ 32 ≤ w.config.maxSegmentBytes - headerSize := by omega
    have hpayload : headerSize + (overlong (w.config.maxSegmentBytes - headerSize)).length =
        w.config.maxSegmentBytes := by
      rw [overlong_length hlen]
      omega
    obtain ⟨v, happ, _, _, hactive⟩ := buffered_append h data hpayload
    refine ⟨v, Later.append (Later.refl _) hroom happ, ?_⟩
    apply not_sound_of_pair (x := ⟨1, []⟩) (y := ⟨1, []⟩) (le_refl 1) (le_refl 1) (le_refl 1)
    intro front back _ hback
    rw [hactive] at hback
    exact (overlong_misread hlen hback).trans (List.sublist_append_right _ _)

omit [Crc32] in
theorem appendBytes_nil (d : Dir) (id : ℕ) : d.appendBytes id [] = d := by
  simp [Dir.appendBytes]

/-- No trace of an append with respect to the WAL before it or after its rotation: the two
read the same. -/
theorem noTrace_congr {u : Wal} (hreads : ∀ k, u.readFrom k = w.readFrom k)
    (hnext : u.nextSequence = w.nextSequence) : NoTrace u w' ↔ NoTrace w w' := by
  constructor
  · intro h
    exact ⟨fun k => (h.reads k).trans (hreads k), h.next.trans hnext, h.active, h.later⟩
  · intro h
    exact ⟨fun k => (h.reads k).trans (hreads k).symm, h.next.trans hnext.symm, h.active,
      h.later⟩

/-- What a WAL that reads right and counts right still needs: payloads that fit the length
field. -/
theorem noTrace_unchanged {c' : Contents} (h : Stores w c) (h' : Stores w' c')
    (hentries : c'.entries = c.entries) (hnext : w'.nextSequence = w.nextSequence)
    (hroom : w.nextSequence + 1 < 2 ^ 64) :
    NoTrace w w' ↔ w'.config.maxSegmentBytes < headerSize + 2 ^ 32 := by
  constructor
  · intro htrace
    by_contra hmax
    obtain ⟨v, hv, hns⟩ := overlong_unsound h' (hnext ▸ hroom) hmax
    exact hns (htrace.later v hv)
  · exact noTrace_of_stores h h' hentries hnext

omit [Crc32] in
theorem flushUnder_error {s s' : Segment} {d d' : Dir} {flush : Option ℕ} {err : WalError}
    (h : Segment.flushUnder s d flush = (.error err, s', d')) :
    ∃ n, flush = some n ∧ s' = { s with writer := s.writer.drop n } ∧
      d' = d.appendBytes s.id (s.writer.take n) := by
  cases flush with
  | none => cases h
  | some n =>
    cases h
    exact ⟨n, rfl, rfl, rfl⟩

omit [Crc32] in
/-- A sync fails in its flush or, with everything written, in the wait for the device. -/
theorem syncUnder_error {s s' : Segment} {d d' : Dir} {flush : Option ℕ} {sync : Bool}
    {err : WalError} (h : Segment.syncUnder s d flush sync = (.error err, s', d')) :
    ∃ n, s' = { s with writer := s.writer.drop n } ∧
      d' = d.appendBytes s.id (s.writer.take n) := by
  rw [Segment.syncUnder] at h
  cases flush with
  | some n =>
    cases h
    exact ⟨n, rfl, rfl⟩
  | none =>
    simp only [Segment.flushUnder, Segment.flush] at h
    split at h
    · cases h
      exact ⟨s.writer.length, by simp, by simp⟩
    · cases h

/-- The entry is in the buffer or in the file when the flush or the sync after it fails. -/
theorem trace_of_unsynced (h : Stores w c) (hroom : w.nextSequence + 1 < 2 ^ 64)
    {data : Bytes} (hfit : headerSize + data.length ≤ w.config.maxSegmentBytes) {n : ℕ}
    (hw' : w' = { w with
      active := { w.active with
        writer := (encode w.nextSequence data).drop n
        size := w.active.size + (headerSize + data.length) }
      dir := w.dir.appendBytes w.active.id ((encode w.nextSequence data).take n) }) :
    ¬ NoTrace w w' := by
  intro htrace
  cases n with
  | zero =>
    have hbuf : w' = buffered w data := by
      rw [hw', List.take_zero, appendBytes_nil, List.drop_zero, buffered]
    obtain ⟨v, hv, hns⟩ := buffered_unsound h hroom hfit
    exact hns (htrace.later v (hbuf ▸ hv))
  | succ n =>
    have hne : (encode w.nextSequence data).take (n + 1) ≠ [] := by
      intro hnil
      have := congrArg List.length hnil
      rw [List.length_take, encode_length, List.length_nil] at this
      have h16 : headerSize = 16 := rfl
      omega
    have hread := htrace.reads 0
    rw [hw'] at hread
    apply leaked_bytes_read h hne _ _ _ hread <;> rfl

/-- The second half of a failed append: nothing happened when the segment refuses the entry
or the write fails before its first byte. -/
theorem appendEncodedUnder_cases (h : Stores w c) (hroom : w.nextSequence + 1 < 2 ^ 64)
    {data : Bytes} {f : AppendFaults} {err : WalError}
    (herr : Wal.appendEncodedUnder w f w.nextSequence (encode w.nextSequence data) =
      (.error err, w')) :
    (w.active.size + (headerSize + data.length) > w.config.maxSegmentBytes ∨
        f.write = some 0) ∧ w' = w ∨
      ¬ (w.active.size + (headerSize + data.length) > w.config.maxSegmentBytes ∨
        f.write = some 0) ∧ ¬ NoTrace w w' := by
  have hwriter : w.active.writer = [] := h.flushed
  rw [Wal.appendEncodedUnder, Segment.appendUnder, Segment.append] at herr
  simp only [encode_length] at herr
  by_cases hfull : w.active.size + (headerSize + data.length) > w.active.maxBytes
  · rw [if_pos hfull] at herr
    cases herr
    rw [h.cap] at hfull
    exact Or.inl ⟨Or.inl hfull, rfl⟩
  rw [if_neg hfull] at herr
  rw [h.cap] at hfull
  have hfit : headerSize + data.length ≤ w.config.maxSegmentBytes := by omega
  cases hwrite : f.write with
  | some n =>
    simp only [hwrite, hwriter, List.nil_append, List.drop_nil] at herr
    cases herr
    by_cases hn : n = 0
    · left
      refine ⟨Or.inr (by rw [hn]), ?_⟩
      rw [hn, List.take_zero, appendBytes_nil, ← hwriter]
    · right
      refine ⟨by simp [hfull, hn], ?_⟩
      have hne : (encode w.nextSequence data).take n ≠ [] := by
        intro hnil
        have := congrArg List.length hnil
        rw [List.length_take, encode_length, List.length_nil] at this
        have h16 : headerSize = 16 := rfl
        omega
      intro htrace
      apply leaked_bytes_read h hne _ _ _ (htrace.reads 0) <;> rfl
  | none =>
    simp only [hwrite, hwriter, List.nil_append] at herr
    right
    refine ⟨by simp [hfull], ?_⟩
    split at herr
    · rename_i e active dir hend
      cases herr
      by_cases hsync : w.config.syncWrites = true
      · rw [if_pos hsync] at hend
        obtain ⟨n, rfl, rfl⟩ := syncUnder_error hend
        exact trace_of_unsynced h hroom hfit rfl
      · rw [if_neg hsync] at hend
        obtain ⟨n, _, rfl, rfl⟩ := flushUnder_error hend
        exact trace_of_unsynced h hroom hfit rfl
    · cases herr

theorem rotateUnder_sync_fails (h : Stores w c) {f : AppendFaults}
    (hf : f.rotateFlush ≠ none ∨ f.rotateSync = true) :
    Wal.rotateUnder w f = (.error (.io .other), w) := by
  have hwriter : w.active.writer = [] := h.flushed
  have hsame : { w with
      active := { w.active with writer := [] }
      dir := w.dir.appendBytes w.active.id [] } = w := by
    rw [appendBytes_nil, ← hwriter]
  rw [Wal.rotateUnder, Segment.syncUnder]
  cases hflush : f.rotateFlush with
  | some n =>
    simp only [Segment.flushUnder, hwriter, List.take_nil, List.drop_nil]
    rw [hsame]
  | none =>
    have hsync : f.rotateSync = true := by simpa [hflush] using hf
    simp only [Segment.flushUnder, Segment.flush, hwriter, hsync, if_true]
    rw [hsame]

omit [Crc32] in
theorem rotateUnder_synced {f : AppendFaults} (hflush : f.rotateFlush = none)
    (hsync : f.rotateSync = false) (hcreate : f.create = false) :
    Wal.rotateUnder w f = w.rotate := by
  rw [← rotateUnder_none]
  simp only [Wal.rotateUnder, hflush, hsync, hcreate, AppendFaults.none]

omit [Crc32] in
/-- The sealed list gets the old id before the new file exists. -/
theorem rotateUnder_create_fails {f : AppendFaults} (hflush : f.rotateFlush = none)
    (hsync : f.rotateSync = false) (hcreate : f.create = true) :
    ∃ u, Wal.rotateUnder w f = (.error (.io .other), u) ∧ u.active.id ∈ u.sealed := by
  simp only [Wal.rotateUnder, Segment.syncUnder, hflush, Segment.flushUnder, hsync,
    Bool.false_eq_true, if_false, Segment.createUnder, hcreate, if_true]
  exact ⟨_, rfl, by simp⟩

/-- A failed append was harmless and kept the entries and the counter, or left a trace. -/
theorem appendUnder_cases (h : Stores w c) (hroom : w.nextSequence + 1 < 2 ^ 64)
    {data : Bytes} {f : AppendFaults} {err : WalError}
    (herr : Wal.appendUnder w f data = (.error err, w')) :
    (Harmless w f data ∧ ∃ c', Stores w' c' ∧ c'.entries = c.entries ∧
        w'.nextSequence = w.nextSequence ∧ w'.config = w.config) ∨
      ¬ Harmless w f data ∧ ¬ NoTrace w w' := by
  rw [Wal.appendUnder] at herr
  simp only [encode_length] at herr
  simp only [Harmless]
  by_cases hdue : w.active.wouldOverflow (headerSize + data.length) = true
  · simp only [hdue, if_true, true_and, true_implies] at herr ⊢
    by_cases hsync : f.rotateFlush ≠ none ∨ f.rotateSync = true
    · rw [rotateUnder_sync_fails h hsync] at herr
      cases herr
      exact Or.inl ⟨Or.inl hsync, c, h, rfl, rfl, rfl⟩
    · simp only [hsync, false_or]
      obtain ⟨hflush, hwait⟩ := not_or.mp hsync
      rw [not_not] at hflush
      rw [Bool.not_eq_true] at hwait
      cases hcreate : f.create with
      | true =>
        obtain ⟨u, hu, hmem⟩ := rotateUnder_create_fails (w := w) hflush hwait hcreate
        rw [hu] at herr
        cases herr
        exact Or.inr ⟨by simp, fun htrace => htrace.active hmem⟩
      | false =>
        obtain ⟨u, hu, hlay, hmarks, hnext, hsize⟩ := rotate_layout h.toLayout
        have hst : Stores u (c.rotated w.active.id) := ⟨hlay, by simpa using h.fits⟩
        have hreads : ∀ k, u.readFrom k = w.readFrom k := by
          intro k
          rw [hst.readFrom, h.readFrom, rotated_entries]
        rw [rotateUnder_synced hflush hwait hcreate, hu] at herr
        simp only [← hnext] at herr
        have hcases := appendEncodedUnder_cases hst (hnext ▸ hroom) herr
        rw [hsize, hmarks.config, Nat.zero_add] at hcases
        simp only [true_and]
        rcases hcases with ⟨hharm, rfl⟩ | ⟨hharm, htrace⟩
        · exact Or.inl ⟨hharm, _, hst, rotated_entries c _, hnext, hmarks.config⟩
        · exact Or.inr ⟨hharm, fun hno => htrace ((noTrace_congr hreads hnext).mpr hno)⟩
  · simp only [hdue] at herr
    have hfull := hdue
    rw [h.wouldOverflow, ← h.size, decide_eq_true_eq] at hfull
    have hfit : ¬ headerSize + data.length > w.config.maxSegmentBytes := by omega
    have hcases := appendEncodedUnder_cases h hroom herr
    simp only [hfull, false_or] at hcases
    simp only [hdue, hfit, false_and, false_or, Bool.false_eq_true, false_implies, true_and]
    rcases hcases with ⟨hharm, rfl⟩ | hcases
    · exact Or.inl ⟨hharm, c, h, rfl, rfl, rfl⟩
    · exact Or.inr hcases

/-- One failed append of a run. -/
structure FailedAppend where
  before : Wal
  faults : AppendFaults
  data : Bytes
  after : Wal

/-- The runs of a WAL from an empty directory, with all their failed appends. No payload that
is accepted is too long for the length field. -/
inductive FaultyRun (config : WalConfig) : List FailedAppend → Wal → Prop where
  | start {w : Wal} : Wal.open config Dir.empty = .ok w → FaultyRun config [] w
  | step {fs : List FailedAppend} {w w' : Wal} {e : WalEvent} : FaultyRun config fs w →
      Step w e w' → (∀ data, e ≠ .rejected data) →
      (config.maxSegmentBytes < headerSize + 2 ^ 32 ∨ e.Short) → FaultyRun config fs w'
  | failed {fs : List FailedAppend} {w w' : Wal} {f : AppendFaults} {data : Bytes}
      {err : WalError} : FaultyRun config fs w → w.nextSequence + 1 < 2 ^ 64 →
      Wal.appendUnder w f data = (.error err, w') →
      FaultyRun config (fs ++ [⟨w, f, data, w'⟩]) w'

variable {config : WalConfig} {fs : List FailedAppend}

/-- While the failures are harmless, the WAL stores its contents. -/
theorem FaultyRun.stores (h : FaultyRun config fs w)
    (hharm : ∀ x ∈ fs, Harmless x.before x.faults x.data) :
    ∃ c, Stores w c ∧ w.config = config := by
  induction h with
  | start hopen =>
    obtain ⟨v, hv, hst, hcfg, _⟩ := open_empty config
    rw [hv] at hopen
    cases hopen
    exact ⟨_, hst, hcfg⟩
  | @step fs w w' e _ hstep _ hshort ih =>
    obtain ⟨c, hst, hcfg⟩ := ih hharm
    have he : e.Short := by
      rcases hshort with hmax | he
      · cases hstep with
        | append _ happ =>
          have hfit := append_ok_fits hst happ
          rw [hcfg] at hfit
          show List.length _ < 2 ^ 32
          omega
        | _ => trivial
      · exact he
    obtain ⟨c', hst', heff⟩ := step_effect hst hstep he
    exact ⟨c', hst', heff.config.trans hcfg⟩
  | failed _ hroom herr ih =>
    obtain ⟨hfront, hlast⟩ := List.forall_mem_append.mp hharm
    obtain ⟨c, hst, hcfg⟩ := ih hfront
    rcases appendUnder_cases hst hroom herr with ⟨_, c', hst', _, _, hcfg'⟩ | ⟨hno, _⟩
    · exact ⟨c', hst', hcfg'.trans hcfg⟩
    · exact absurd (hlast _ (List.mem_singleton_self _)) hno

/-- One failed append, after harmless failures only. -/
theorem noTrace_iff (h : Stores w c) (hroom : w.nextSequence + 1 < 2 ^ 64) {data : Bytes}
    {f : AppendFaults} {err : WalError} (herr : Wal.appendUnder w f data = (.error err, w')) :
    NoTrace w w' ↔
      Harmless w f data ∧ w.config.maxSegmentBytes < headerSize + 2 ^ 32 := by
  rcases appendUnder_cases h hroom herr with
    ⟨hharm, c', hst', hentries, hnext, hcfg⟩ | ⟨hharm, htrace⟩
  · rw [noTrace_unchanged h hst' hentries hnext hroom, hcfg]
    simp only [hharm, true_and]
  · simp only [htrace, hharm, false_and]

/-- The failed appends of a run leave no trace exactly when all of them are harmless, and the
segments are too small for a payload that the length field cannot hold. -/
theorem failed_append_no_trace (h : FaultyRun config fs w) :
    (∀ x ∈ fs, NoTrace x.before x.after) ↔
      (∀ x ∈ fs, Harmless x.before x.faults x.data) ∧
        (fs ≠ [] → config.maxSegmentBytes < headerSize + 2 ^ 32) := by
  induction h with
  | start => simp
  | step _ _ _ _ ih => exact ih
  | @failed fs w w' f data err hrun hroom herr ih =>
    rw [List.forall_mem_append, List.forall_mem_append, List.forall_mem_singleton,
      List.forall_mem_singleton, ih]
    have hlast : (∀ x ∈ fs, Harmless x.before x.faults x.data) → (NoTrace w w' ↔
        Harmless w f data ∧ config.maxSegmentBytes < headerSize + 2 ^ 32) := by
      intro hharm
      obtain ⟨c, hst, hcfg⟩ := hrun.stores hharm
      rw [noTrace_iff hst hroom herr, hcfg]
    constructor
    · rintro ⟨⟨hharm, _⟩, htrace⟩
      obtain ⟨hlastHarm, hmax⟩ := (hlast hharm).mp htrace
      exact ⟨⟨hharm, hlastHarm⟩, fun _ => hmax⟩
    · rintro ⟨⟨hharm, hlastHarm⟩, hmax⟩
      have hmax := hmax (by simp)
      exact ⟨⟨hharm, fun _ => hmax⟩, (hlast hharm).mpr ⟨hlastHarm, hmax⟩⟩

/-- A sync that fails after the write leaves the whole entry in the file. -/
theorem unsynced_append (h : Stores w c) {data : Bytes} (hsync : w.config.syncWrites = true)
    (hfit : w.active.size + (headerSize + data.length) ≤ w.config.maxSegmentBytes) :
    ∃ w', Wal.appendUnder w ⟨none, false, false, none, none, true⟩ data =
        (.error (.io .other), w') ∧ w'.nextSequence = w.nextSequence ∧
      w'.sealed = w.sealed ∧ w'.active.id = w.active.id ∧
      w'.dir = w.dir.appendBytes w.active.id (encode w.nextSequence data) := by
  have hwriter : w.active.writer = [] := h.flushed
  have hover : ¬ w.active.wouldOverflow (headerSize + data.length) = true := by
    rw [Segment.wouldOverflow, h.cap, decide_eq_true_eq]
    omega
  have hroom : ¬ w.active.size + (headerSize + data.length) > w.active.maxBytes := by
    rw [h.cap]
    omega
  simp only [Wal.appendUnder, encode_length, if_neg hover, Wal.appendEncodedUnder,
    Segment.appendUnder, Segment.append, if_neg hroom, hsync, if_true, Segment.syncUnder,
    Segment.flushUnder, Segment.flush, hwriter, List.nil_append]
  exact ⟨_, rfl, rfl, rfl, rfl, rfl⟩

theorem readFrom_appended (h : Stores w ⟨[], []⟩) (hsealed : w'.sealed = w.sealed)
    (hid : w'.active.id = w.active.id) {e : Entry} (he : e.Fits)
    (hdir : w'.dir = w.dir.appendBytes w.active.id e.encoded) (k : ℕ) :
    w'.readFrom k = .ok ([e].filter (fun e => k ≤ e.sequence)) := by
  have hmem : w.active.id ∈ w.dir.ids := h.mem_files.mpr (Or.inr rfl)
  have hbytes : w.dir.bytes w.active.id = [] := h.active_bytes
  have hread : readEntries w'.dir w'.active.id = .ok [e] := by
    rw [hid]
    apply readEntries_encodeAll
    · rw [hdir]
      exact hmem
    · rw [hdir]
      simp only [Dir.appendBytes, Function.update_self, hbytes, List.nil_append, encodeAll_cons,
        encodeAll_nil, List.append_nil]
    · simpa using he
  rw [Wal.readFrom, hread, hsealed, h.sealed_ids]
  rfl

omit [Crc32] in
/-- A payload that fits no segment is refused before and after an append that succeeds, and
nothing is left of it. -/
theorem failed_append_no_trace_oversize :
    ∃ x y w, @FaultyRun ieee ⟨20, true⟩ [x, y] w ∧ x.data = [7, 7, 7, 7, 7] ∧
      y.data = [7, 7, 7, 7, 7] ∧ @Wal.readFrom ieee y.before 1 = .ok [⟨1, [8]⟩] ∧
      @NoTrace ieee x.before x.after ∧ @NoTrace ieee y.before y.after := by
  let _ : Crc32 := ieee
  let big : Bytes := [7, 7, 7, 7, 7]
  have hmax : 20 < headerSize + 2 ^ 32 := Nat.lt_add_left headerSize (by decide)
  have hbig : ¬ headerSize + big.length ≤ 20 := by decide
  obtain ⟨w, hopen, hst, hcfg, hn, _⟩ := open_empty ⟨20, true⟩
  obtain ⟨w₁, hrej₁, hst₁, hm₁, hn₁⟩ := append_rejected hst big (by rw [hcfg]; exact hbig)
  have hcfg₁ := hm₁.config.trans hcfg
  obtain ⟨w₂, happ₂, hst₂, hm₂, hn₂⟩ := append_accepted hst₁ [8] (by decide)
    (by rw [hn₁, hn]; decide) (by rw [hcfg₁]; decide)
  have hcfg₂ := hm₂.config.trans hcfg₁
  obtain ⟨w₃, hrej₃, _⟩ := append_rejected hst₂ big (by rw [hcfg₂]; exact hbig)
  have run₁ := (FaultyRun.start hopen).failed (by rw [hn]; decide)
    ((appendUnder_none w big).trans hrej₁)
  have run₂ := run₁.step (.append (by rw [hn₁, hn]; decide) happ₂) (by simp) (Or.inl hmax)
  have run₃ := run₂.failed (by rw [hn₂, hn₁, hn]; decide)
    ((appendUnder_none w₂ big).trans hrej₃)
  have hharm : ∀ v : Wal, v.config = ⟨20, true⟩ → Harmless v .none big := by
    intro v hv
    refine Or.inr ⟨fun _ => rfl, Or.inl ?_⟩
    rw [hv]
    exact Nat.lt_of_not_le hbig
  have htraces := (failed_append_no_trace run₃).mpr
    ⟨by simp [hharm w hcfg, hharm w₂ hcfg₂], fun _ => hmax⟩
  have hread : w₂.readFrom 1 = .ok [⟨1, [8]⟩] := by
    rw [hst₂.readFrom_one, grown_entries, rotated_entries, hn₁, hn]
    rfl
  exact ⟨_, _, w₃, run₃, rfl, rfl, hread, htraces _ (by simp), htraces _ (by simp)⟩

omit [Crc32] in
/-- The sync after the write fails: the entry can be read, and its sequence is the next one
to be used. -/
theorem failed_append_readable :
    ∃ w w' err, @FaultyRun ieee ⟨20, true⟩ [] w ∧
      @Wal.appendUnder ieee w ⟨none, false, false, none, none, true⟩ [7] = (.error err, w') ∧
      @Wal.readFrom ieee w 1 = .ok [] ∧ @Wal.readFrom ieee w' 1 = .ok [⟨1, [7]⟩] ∧
      w'.nextSequence = 1 ∧ ¬ @NoTrace ieee w w' := by
  let _ : Crc32 := ieee
  obtain ⟨w, hopen, hst, hcfg, hn, _⟩ := open_empty ⟨20, true⟩
  have hsize : w.active.size = 0 := hst.size
  have hfit : w.active.size + (headerSize + ([7] : Bytes).length) ≤
      w.config.maxSegmentBytes := by
    rw [hsize, hcfg]
    decide
  obtain ⟨w', happ, hnext, hsealed, hid, hdir⟩ := unsynced_append hst (by rw [hcfg]) hfit
  have hread := readFrom_appended hst hsealed hid (e := ⟨1, [7]⟩) ⟨by decide, by decide⟩
    (by rw [hdir, hn, Entry.encoded]) 1
  refine ⟨w, w', _, .start hopen, happ, hst.readFrom_one, hread, hnext.trans hn, ?_⟩
  intro htrace
  have hsame := htrace.reads 1
  rw [hread, hst.readFrom_one] at hsame
  cases hsame

end

end WalFailedAppend
