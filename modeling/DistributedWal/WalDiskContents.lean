import DistributedWal.DurableLog
import DistributedWal.WalDisk
import DistributedWal.WalSegmentParsing
import DistributedWal.WalTornWrite

/-! # What the disk under a WAL holds

The sealed segments are on the device, and of the active one some first records are.
Every call of an operation keeps this, so an outage between any two calls leaves the
firm records and some of the others.
-/
namespace WalDiskContents

open LittleEndianCodec SelfDelimiting WalEntry WalSegment WalEngine WalContents
open WalSegmentParsing WalTornWrite WalDisk DurableLog

variable [Crc32]

/-- The segment files hold the contents, up to the active segment `id`; `l` says which of
the entries an outage is sure to leave. -/
structure Holds (d : Disk) (id : ℕ) (c : Contents) (l : Log Entry) : Prop where
  ascending : (c.ids id).Pairwise (· < ·)
  files : d.dir.ids = (c.ids id).toFinset
  sealed_bytes : ∀ p ∈ c.sealed, d.dir.bytes p.1 = encodeAll p.2
  active_bytes : d.dir.bytes id = encodeAll c.active
  fits : ∀ e ∈ c.entries, e.Fits
  numbered : ∃ next, Numbered next c.entries
  sealed_synced : ∀ p ∈ c.sealed, d.synced p.1 = some (encodeAll p.2).length
  active_synced : ∃ safe, c.active = safe ++ l.loose ∧
    l.firm = (c.sealed.map Prod.snd).flatten ++ safe ∧
    (d.synced id).getD 0 = (encodeAll safe).length

variable {d : Disk} {id : ℕ} {c : Contents} {l : Log Entry}

theorem Holds.held (h : Holds d id c l) : l.held = c.entries := by
  obtain ⟨safe, hactive, hfirm, _⟩ := h.active_synced
  rw [Log.held, hfirm, Contents.entries, hactive, List.append_assoc]

theorem Holds.sealed_lt (h : Holds d id c l) {p : ℕ × List Entry} (hp : p ∈ c.sealed) :
    p.1 < id := by
  have := (List.pairwise_append.mp h.ascending).2.2
  exact this p.1 (List.mem_map_of_mem hp) id (by simp)

theorem Holds.mem_files (h : Holds d id c l) {sid : ℕ} :
    sid ∈ d.dir.ids ↔ (∃ p ∈ c.sealed, p.1 = sid) ∨ sid = id := by
  simp [h.files, Contents.ids, or_comm]

/-- A disk that holds contents is the directory of a log that stores them. -/
theorem Holds.stores (h : Holds d id c l) (config : WalConfig) :
    ∃ w, w.config = config ∧ w.dir = d.dir ∧ w.active.id = id ∧ Stores w c := by
  obtain ⟨next, hnext⟩ := h.numbered
  refine ⟨⟨config, ⟨id, [], (encodeAll c.active).length, config.maxSegmentBytes⟩,
    c.sealed.map Prod.fst, 0, next, d.dir⟩, rfl, rfl, rfl, ⟨?_, h.fits⟩⟩
  exact ⟨rfl, h.ascending, h.files, h.sealed_bytes, h.active_bytes, rfl, rfl, rfl, hnext⟩

/-- Such a disk opens with its contents, and opening it changes nothing. -/
theorem Holds.opens (h : Holds d id c l) (config : WalConfig) :
    ∃ w, Wal.open config d.dir = .ok w ∧ Stores w c ∧ w.config = config ∧ w.dir = d.dir ∧
      w.active.id = id ∧ openCalls d.dir = [] := by
  obtain ⟨v, rfl, hdir, rfl, hst⟩ := h.stores config
  obtain ⟨w, hopen, hw, hcfg, hwdir, hid, _⟩ := open_spec hst
  have hlist : listSegments d.dir = c.ids v.active.id := listSegments_eq h.ascending h.files
  refine ⟨w, hdir ▸ hopen, hw, hcfg, hwdir.trans hdir, hid, ?_⟩
  simp [openCalls, hlist, Contents.ids]

omit [Crc32] in
theorem call_write_nil (d : Disk) (id : ℕ) : d.call (.write id []) = d := by
  cases d
  simp [Disk.call, Dir.appendBytes]

/-- A record written to the active segment is loose. -/
theorem Holds.write (h : Holds d id c l) {next : ℕ} (hnext : Numbered next c.entries)
    {data : Bytes} (hfits : (Entry.mk next data).Fits) :
    Holds (d.call (.write id (encode next data))) id (c.appended ⟨next, data⟩)
      ⟨l.firm, l.loose ++ [⟨next, data⟩]⟩ := by
  obtain ⟨safe, hactive, hfirm, hsynced⟩ := h.active_synced
  constructor
  · exact h.ascending
  · exact h.files
  · intro p hp
    have hne : p.1 ≠ id := Nat.ne_of_lt (h.sealed_lt hp)
    simpa [Disk.call, Dir.appendBytes, Function.update_of_ne hne] using h.sealed_bytes p hp
  · simp [Disk.call, Dir.appendBytes, Contents.appended, h.active_bytes, Entry.encoded]
  · simpa [or_imp, forall_and] using ⟨h.fits, hfits⟩
  · exact ⟨next + 1, by simpa using hnext.snoc data⟩
  · exact h.sealed_synced
  · exact ⟨safe, by simp [Contents.appended, hactive], hfirm, hsynced⟩

/-- After an fsync nothing is loose. -/
theorem Holds.fsync (h : Holds d id c l) :
    Holds (d.call (.fsync id)) id c ⟨l.held, []⟩ ∧
      (d.call (.fsync id)).synced id = some (encodeAll c.active).length := by
  have hsynced : (d.call (.fsync id)).synced id = some (encodeAll c.active).length := by
    simp [Disk.call, h.active_bytes]
  refine ⟨⟨h.ascending, h.files, h.sealed_bytes, h.active_bytes, h.fits, h.numbered, ?_, ?_⟩,
    hsynced⟩
  · intro p hp
    have hne : p.1 ≠ id := Nat.ne_of_lt (h.sealed_lt hp)
    simpa [Disk.call, Function.update_of_ne hne] using h.sealed_synced p hp
  · refine ⟨c.active, by simp, h.held, ?_⟩
    rw [hsynced]
    rfl

/-- The next segment is created once the active one is synced. -/
theorem Holds.create (h : Holds d id c l) (hloose : l.loose = [])
    (hsynced : d.synced id = some (encodeAll c.active).length) :
    Holds (d.call (.create (id + 1))) (id + 1) (c.rotated id) l := by
  obtain ⟨safe, hactive, hfirm, _⟩ := h.active_synced
  have hlt : ∀ p ∈ (c.rotated id).sealed, p.1 < id + 1 := by
    intro p hp
    rcases List.mem_append.mp hp with hp | hp
    · exact (h.sealed_lt hp).trans (Nat.lt_succ_self id)
    · obtain rfl := List.mem_singleton.mp hp
      exact Nat.lt_succ_self _
  constructor
  · have hids : (c.rotated id).ids (id + 1) = c.ids id ++ [id + 1] := by
      simp [Contents.ids, Contents.rotated]
    rw [hids]
    refine List.pairwise_append.mpr ⟨h.ascending, by simp, fun a ha b hb => ?_⟩
    obtain rfl := List.mem_singleton.mp hb
    have hmem : a ∈ (c.rotated id).sealed.map Prod.fst := by
      simpa [Contents.ids, Contents.rotated] using ha
    obtain ⟨p, hp, rfl⟩ := List.mem_map.mp hmem
    exact hlt p hp
  · ext sid
    simp only [Disk.call, Finset.mem_insert, h.mem_files, Contents.ids, Contents.rotated]
    simp
    tauto
  · intro p hp
    have hne : p.1 ≠ id + 1 := Nat.ne_of_lt (hlt p hp)
    simp only [Disk.call, Function.update_of_ne hne]
    rcases List.mem_append.mp hp with hp | hp
    · exact h.sealed_bytes p hp
    · obtain rfl := List.mem_singleton.mp hp
      exact h.active_bytes
  · simp [Disk.call, Contents.rotated]
  · simpa using h.fits
  · simpa using h.numbered
  · intro p hp
    have hne : p.1 ≠ id + 1 := Nat.ne_of_lt (hlt p hp)
    simp only [Disk.call, Function.update_of_ne hne]
    rcases List.mem_append.mp hp with hp | hp
    · exact h.sealed_synced p hp
    · obtain rfl := List.mem_singleton.mp hp
      exact hsynced
  · refine ⟨[], by simp [Contents.rotated, hloose], ?_, by simp [Disk.call]⟩
    simp [Contents.rotated, hfirm, hactive, hloose]

theorem Holds.replaceCheckpoint (h : Holds d id c l) (bs : Bytes) :
    Holds (d.call (.replaceCheckpoint bs)) id c l :=
  ⟨h.ascending, h.files, h.sealed_bytes, h.active_bytes, h.fits, h.numbered,
    h.sealed_synced, h.active_synced⟩

/-- A sealed segment is removed that holds nothing, or has no record before it. -/
theorem Holds.unlink {front ps : List (ℕ × List Entry)} {p : ℕ × List Entry}
    {active : List Entry} (h : Holds d id ⟨front ++ p :: ps, active⟩ l)
    (hfirst : p.2 = [] ∨ (front.map Prod.snd).flatten = []) :
    ∃ l', Holds (d.call (.unlink p.1)) id ⟨front ++ ps, active⟩ l' ∧
      l.firm = p.2 ++ l'.firm ∧ l'.loose = l.loose := by
  obtain ⟨safe, hactive, hfirm, hsynced⟩ := h.active_synced
  have hsub : (front ++ ps).Sublist (front ++ p :: ps) :=
    (List.Sublist.refl front).append (List.sublist_cons_self p ps)
  have hids : Contents.ids ⟨front ++ p :: ps, active⟩ id =
      front.map Prod.fst ++ p.1 :: (ps.map Prod.fst ++ [id]) := by
    simp [Contents.ids]
  have hids' : Contents.ids ⟨front ++ ps, active⟩ id =
      front.map Prod.fst ++ (ps.map Prod.fst ++ [id]) := by
    simp [Contents.ids]
  have hfresh : p.1 ∉ front.map Prod.fst ++ (ps.map Prod.fst ++ [id]) := by
    have hnodup : (front.map Prod.fst ++ p.1 :: (ps.map Prod.fst ++ [id])).Nodup :=
      hids ▸ h.ascending.imp Nat.ne_of_lt
    exact (List.nodup_cons.mp (List.nodup_middle.mp hnodup)).1
  have hfirm' : l.firm = p.2 ++ (((front ++ ps).map Prod.snd).flatten ++ safe) := by
    rcases hfirst with hp | hfront
    · simp [hfirm, hp]
    · simp [hfirm, hfront]
  have hentries : l.held = p.2 ++ Contents.entries ⟨front ++ ps, active⟩ := by
    rw [Log.held, hfirm', Contents.entries, hactive]
    simp
  have hsuffix : Contents.entries ⟨front ++ ps, active⟩ <:+
      Contents.entries ⟨front ++ p :: ps, active⟩ :=
    ⟨p.2, by rw [← hentries, h.held]⟩
  refine ⟨⟨((front ++ ps).map Prod.snd).flatten ++ safe, l.loose⟩, ?_, hfirm', rfl⟩
  constructor
  · exact h.ascending.sublist ((hsub.map Prod.fst).append (List.Sublist.refl _))
  · have hfiles := h.files
    rw [hids, List.toFinset_append, List.toFinset_cons, Finset.union_insert,
      ← List.toFinset_append] at hfiles
    simp only [Disk.call, Dir.remove, hfiles, hids']
    exact Finset.erase_insert (fun hmem => hfresh (List.mem_toFinset.mp hmem))
  · exact fun q hq => h.sealed_bytes q (hsub.subset hq)
  · exact h.active_bytes
  · exact fun e he => h.fits e (hsuffix.subset he)
  · obtain ⟨next, hnext⟩ := h.numbered
    exact ⟨next, hnext.suffix hsuffix⟩
  · exact fun q hq => h.sealed_synced q (hsub.subset hq)
  · exact ⟨safe, hactive, rfl, hsynced⟩

omit [Crc32] in
theorem front_numbered {next : ℕ} {es fs : List Entry} (h : Numbered next fs)
    (hpre : es <+: fs) : ∃ next', Numbered next' es := by
  obtain ⟨first, hf, _, hseq⟩ := h
  refine ⟨first + es.length, first, hf, rfl, ?_⟩
  have := congrArg (List.take es.length) hseq
  rwa [← List.map_take, ← List.prefix_iff_eq_take.mp hpre,
    List.take_range'_of_length_ge hpre.length_le] at this

/-- Files that hold contents and are all on the device. -/
theorem settled_holds {d' : Dir} {id : ℕ} {c : Contents}
    (hasc : (c.ids id).Pairwise (· < ·)) (hfiles : d'.ids = (c.ids id).toFinset)
    (hsealed : ∀ p ∈ c.sealed, d'.bytes p.1 = encodeAll p.2)
    (hactive : d'.bytes id = encodeAll c.active) (hfits : ∀ e ∈ c.entries, e.Fits)
    (hnum : ∃ next, Numbered next c.entries) :
    Holds (settled d') id c ⟨c.entries, []⟩ := by
  refine ⟨hasc, hfiles, hsealed, hactive, hfits, hnum, ?_, c.active, by simp, rfl, ?_⟩
  · intro p hp
    simp [settled, hsealed p hp]
  · simp [settled, hactive]

section

variable {d' : Dir}

/-- The sealed segments come through whole. -/
theorem Holds.sealed_after (h : Holds d id c l) (hout : Outage d d')
    {p : ℕ × List Entry} (hp : p ∈ c.sealed) :
    p.1 ∈ d'.ids ∧ d'.bytes p.1 = encodeAll p.2 := by
  have hsynced := h.sealed_synced p hp
  have hmem : p.1 ∈ d'.ids :=
    hout.kept p.1 (h.mem_files.mpr (Or.inl ⟨p, hp, rfl⟩)) (by simp [hsynced])
  obtain ⟨n, hn, hbytes⟩ := hout.cut p.1 hmem
  have hlen : (encodeAll p.2).length ≤ n := by simpa [hsynced] using hn
  exact ⟨hmem, by rw [hbytes, h.sealed_bytes p hp, List.take_of_length_le hlen]⟩

/-- The active segment is there after the outage: its firm records, some whole records
more, and perhaps a part of the next one. -/
theorem Holds.after_cut (h : Holds d id c l) (hout : Outage d d') (hid : id ∈ d'.ids) :
    ∃ es rest kept, (listSegments d').getLast? = some id ∧
      d'.bytes id = encodeAll es ++ rest ∧ (∀ e ∈ es, e.Fits) ∧
      (rest ≠ [] → l.loose ≠ [] ∧ ∃ e : Entry, e.Fits ∧ Cut rest e.encoded) ∧
      kept <+: l.loose ∧
      (rest = [] → Holds (settled d') id ⟨c.sealed, es⟩ ⟨l.firm ++ kept, []⟩) := by
  obtain ⟨safe, hactive, hfirm, hsynced⟩ := h.active_synced
  obtain ⟨n, hn, hcut⟩ := hout.cut id hid
  obtain ⟨rest, htake, hkept, hpart⟩ := take_encodeAll (n - (encodeAll safe).length) l.loose
  have hids : d'.ids = (c.ids id).toFinset := by
    apply Finset.Subset.antisymm (h.files ▸ hout.ids)
    intro sid hsid
    rcases h.mem_files.mp (h.files ▸ hsid) with ⟨p, hp, rfl⟩ | rfl
    · exact (h.sealed_after hout hp).1
    · exact hid
  have hbytes : d'.bytes id =
      encodeAll (safe ++ survivors (n - (encodeAll safe).length) l.loose) ++ rest := by
    rw [hcut, h.active_bytes, hactive, encodeAll_append, List.take_append,
      List.take_of_length_le (hsynced ▸ hn), htake, encodeAll_append, List.append_assoc]
  have hpre : Contents.entries ⟨c.sealed, safe ++ survivors (n - (encodeAll safe).length)
      l.loose⟩ <+: c.entries := by
    rw [Contents.entries, Contents.entries, hactive]
    exact (List.prefix_append_right_inj _).mpr ((List.prefix_append_right_inj _).mpr hkept)
  have hfits : ∀ e ∈ c.active, e.Fits := fun e he => h.fits e (List.mem_append_right _ he)
  refine ⟨safe ++ survivors (n - (encodeAll safe).length) l.loose, rest,
    survivors (n - (encodeAll safe).length) l.loose, ?_, hbytes, ?_, ?_, hkept, ?_⟩
  · rw [listSegments_eq h.ascending hids]
    simp [Contents.ids]
  · exact fun e he => h.fits e (hpre.subset (List.mem_append_right _ he))
  · intro hne
    obtain ⟨e, he, hepre, helen⟩ := hpart hne
    refine ⟨List.ne_nil_of_mem he, e, hfits e ?_, hepre, ?_⟩
    · exact hactive ▸ List.mem_append_right _ he
    · rintro rfl
      exact lt_irrefl _ helen
  · rintro rfl
    obtain ⟨next, hnext⟩ := h.numbered
    have hholds := settled_holds (c := ⟨c.sealed, safe ++
      survivors (n - (encodeAll safe).length) l.loose⟩) h.ascending hids (fun p hp =>
      (h.sealed_after hout hp).2) (by simpa using hbytes)
      (fun e he => h.fits e (hpre.subset he)) (front_numbered hnext hpre)
    simpa [Contents.entries, hfirm] using hholds

/-- The active segment file is gone: nothing in it was firm. -/
theorem Holds.after_loss (h : Holds d id c l) (hout : Outage d d') (hid : id ∉ d'.ids) :
    (d'.ids = ∅ ∧ l.firm = []) ∨
      ∃ p ps, c.sealed = ps ++ [p] ∧ Holds (settled d') p.1 ⟨ps, p.2⟩ ⟨l.firm, []⟩ := by
  obtain ⟨safe, hactive, hfirm, hsynced⟩ := h.active_synced
  have hnone : d.synced id = none := by
    by_contra hne
    exact hid (hout.kept id (h.mem_files.mpr (Or.inr rfl)) hne)
  have hsafe : safe = [] := by
    rw [hnone] at hsynced
    cases safe with
    | nil => rfl
    | cons e es =>
      have hlen : e.encoded.length = 0 := by
        simp only [Option.getD_none, encodeAll_cons, List.length_append] at hsynced
        omega
      exact absurd (List.length_eq_zero_iff.mp hlen) e.encoded_ne_nil
  have hids : d'.ids = (c.sealed.map Prod.fst).toFinset := by
    ext sid
    rw [List.mem_toFinset]
    constructor
    · intro hsid
      rcases h.mem_files.mp (hout.ids hsid) with ⟨p, hp, rfl⟩ | rfl
      · exact List.mem_map_of_mem hp
      · exact absurd hsid hid
    · intro hsid
      obtain ⟨p, hp, rfl⟩ := List.mem_map.mp hsid
      exact (h.sealed_after hout hp).1
  rcases List.eq_nil_or_concat c.sealed with hnil | ⟨ps, p, hps⟩
  · exact Or.inl ⟨by simp [hids, hnil], by simp [hfirm, hnil, hsafe]⟩
  · rw [List.concat_eq_append] at hps
    have hentries : Contents.entries ⟨ps, p.2⟩ = l.firm := by
      simp [Contents.entries, hfirm, hps, hsafe]
    have hpre : Contents.entries ⟨ps, p.2⟩ <+: c.entries := by
      rw [hentries, ← h.held]
      exact List.prefix_append _ _
    refine Or.inr ⟨p, ps, hps, ?_⟩
    obtain ⟨next, hnext⟩ := h.numbered
    have hasc : (c.sealed.map Prod.fst).Pairwise (· < ·) :=
      (List.pairwise_append.mp h.ascending).1
    have hmap : c.sealed.map Prod.fst = Contents.ids ⟨ps, p.2⟩ p.1 := by
      simp [hps, Contents.ids]
    have hafter : ∀ q ∈ ps ++ [p], d'.bytes q.1 = encodeAll q.2 :=
      fun q hq => (h.sealed_after hout (hps ▸ hq)).2
    have hholds : Holds (settled d') p.1 ⟨ps, p.2⟩ _ := settled_holds (hmap ▸ hasc)
      (hmap ▸ hids) (fun q hq => hafter q (List.mem_append_left _ hq)) (hafter p (by simp))
      (fun e he => h.fits e (hpre.subset he)) (front_numbered hnext hpre)
    rwa [hentries] at hholds

end

end WalDiskContents
