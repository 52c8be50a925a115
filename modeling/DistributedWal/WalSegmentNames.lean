import DistributedWal.DecimalNumerals
import DistributedWal.WalSegment

/-! # The names of segment files

Only files called `wal-*.seg` are listed. The id of a name is its numeral, so the listing
is in numeric order whatever the directory returns. A listed name without an id sorts last.
Names that are not UTF-8 are never listed and left out.
-/
namespace WalSegmentNames

open DecimalNumerals WalSegment

abbrev FileName := List Char

def segmentPrefix : FileName := ['w', 'a', 'l', '-']

def segmentSuffix : FileName := ['.', 's', 'e', 'g']

def segmentName (id : ℕ) : FileName := segmentPrefix ++ (padded 20 id ++ segmentSuffix)

/-- `str::parse::<u64>`, which takes a leading plus sign. -/
def parseU64 : List Char → Option ℕ
  | [] => none
  | c :: cs =>
    if c = '+' then if cs = [] then none else readDigits (2 ^ 64) 0 cs
    else readDigits (2 ^ 64) 0 (c :: cs)

inductive NameError where
  | invalidSegmentFilename (filename : FileName)
  deriving DecidableEq, Repr

def segmentIdFromName (name : FileName) : Except NameError ℕ :=
  match (name.dropPrefix? segmentPrefix).bind (fun s => s.dropSuffix? segmentSuffix) with
  | none => .error (.invalidSegmentFilename name)
  | some numeric =>
    match parseU64 numeric with
    | none => .error (.invalidSegmentFilename name)
    | some id => .ok id

/-- What stands before and after the last dot. -/
def splitAtLastDot : FileName → Option (FileName × FileName)
  | [] => none
  | c :: cs =>
    match splitAtLastDot cs with
    | some (stem, ext) => some (c :: stem, ext)
    | none => if c = '.' then some ([], cs) else none

/-- `Path::extension`: a dot at the start of the name does not count. -/
def extension (name : FileName) : Option FileName :=
  match splitAtLastDot name with
  | none => none
  | some (stem, ext) => if stem = [] then none else some ext

def isListed (name : FileName) : Bool :=
  extension name == some ['s', 'e', 'g'] && segmentPrefix.isPrefixOf name

def sortKey (name : FileName) : ℕ := (segmentIdFromName name).toOption.getD (2 ^ 64 - 1)

/-- `list_segments`, on the names as the directory returns them. -/
def listNames (names : List FileName) : List FileName :=
  (names.filter isListed).mergeSort (fun p q => sortKey p ≤ sortKey q)

/-- `segment_id_from_path(p).unwrap()` for every name; `none` is the panic. -/
def unwrapIds : List FileName → Option (List ℕ)
  | [] => some []
  | p :: ps =>
    match segmentIdFromName p with
    | .error _ => none
    | .ok id => (unwrapIds ps).map (id :: ·)

/-- The ids that `Wal::open` takes from the listing, those of the sealed segments and that
of the active one. -/
def existingIds (names : List FileName) : Option (Except NameError (List ℕ × Option ℕ)) :=
  match (listNames names).getLast? with
  | none => some (.ok ([], none))
  | some activeName =>
    match unwrapIds (listNames names).dropLast with
    | none => none
    | some sealedIds =>
      match segmentIdFromName activeName with
      | .error e => some (.error e)
      | .ok id => some (.ok (sealedIds, some id))

variable {name : FileName} {names : List FileName} {id : ℕ}

theorem parseU64_eq_some {cs : List Char} :
    parseU64 cs = some id ↔ ∃ digits, (cs = digits ∨ cs = '+' :: digits) ∧ digits ≠ [] ∧
      IsNumeral digits ∧ Nat.ofDigitChars 10 digits 0 = id ∧ id < 2 ^ 64 := by
  have hzero : 0 < 2 ^ 64 := by decide
  constructor
  · intro h
    cases cs with
    | nil => cases h
    | cons c cs =>
      rw [parseU64] at h
      split at h
      · rename_i hplus
        split at h
        · cases h
        · rename_i hne
          exact ⟨cs, Or.inr (by rw [hplus]), hne, (readDigits_eq_some hzero).mp h⟩
      · exact ⟨c :: cs, Or.inl rfl, by simp, (readDigits_eq_some hzero).mp h⟩
  · rintro ⟨digits, rfl | rfl, hne, hdigits⟩
    · cases cs with
      | nil => exact absurd rfl hne
      | cons c cs =>
        have hplus : c ≠ '+' := by
          rintro rfl
          exact absurd hdigits.1.head (by decide)
        rw [parseU64, if_neg hplus]
        exact (readDigits_eq_some hzero).mpr hdigits
    · rw [parseU64, if_pos rfl, if_neg hne]
      exact (readDigits_eq_some hzero).mpr hdigits

theorem segmentIdFromName_ok :
    segmentIdFromName name = .ok id ↔
      ∃ numeric, name = segmentPrefix ++ (numeric ++ segmentSuffix) ∧
        parseU64 numeric = some id := by
  constructor
  · intro h
    rw [segmentIdFromName] at h
    split at h
    · cases h
    · rename_i numeric hnumeric
      obtain ⟨rest, hrest, hsuffix⟩ := Option.bind_eq_some_iff.mp hnumeric
      obtain ⟨p, rfl, hp⟩ := List.dropPrefix?_eq_some_iff.mp hrest
      obtain ⟨s, rfl, hs⟩ := List.dropSuffix?_eq_some_iff.mp hsuffix
      obtain rfl := eq_of_beq hp
      obtain rfl := eq_of_beq hs
      split at h
      · cases h
      · cases h
        exact ⟨numeric, rfl, by assumption⟩
  · rintro ⟨numeric, rfl, hparse⟩
    have hdrop : (segmentPrefix ++ (numeric ++ segmentSuffix)).dropPrefix? segmentPrefix =
        some (numeric ++ segmentSuffix) :=
      List.dropPrefix?_eq_some_iff.mpr ⟨_, rfl, beq_self_eq_true _⟩
    have hdrop' : (numeric ++ segmentSuffix).dropSuffix? segmentSuffix = some numeric :=
      List.dropSuffix?_eq_some_iff.mpr ⟨_, rfl, beq_self_eq_true _⟩
    simp only [segmentIdFromName, hdrop, Option.bind_some, hdrop', hparse]

theorem segmentIdFromName_error {e : NameError} (h : segmentIdFromName name = .error e) :
    e = .invalidSegmentFilename name := by
  rw [segmentIdFromName] at h
  split at h
  · cases h
    rfl
  · split at h
    · cases h
      rfl
    · cases h

theorem parseU64_padded (hid : id < 2 ^ 64) : parseU64 (padded 20 id) = some id := by
  have hlen : (padded 20 id).length = 20 :=
    padded_length (by decide) (hid.trans (by decide))
  refine parseU64_eq_some.mpr ⟨_, Or.inl rfl, ?_, padded_numeral 20 id, padded_value 20 id, hid⟩
  rintro hnil
  simp [hnil] at hlen

/-- A segment's own name gives back its id. -/
theorem segmentIdFromName_segmentName (hid : id < 2 ^ 64) :
    segmentIdFromName (segmentName id) = .ok id :=
  segmentIdFromName_ok.mpr ⟨padded 20 id, rfl, parseU64_padded hid⟩

theorem splitAtLastDot_eq_none : splitAtLastDot name = none ↔ '.' ∉ name := by
  induction name with
  | nil => simp [splitAtLastDot]
  | cons c cs ih =>
    rw [splitAtLastDot]
    cases h : splitAtLastDot cs with
    | some p =>
      have : '.' ∈ cs := by
        by_contra hcs
        rw [ih.mpr hcs] at h
        cases h
      simp [this]
    | none =>
      have hcs := ih.mp h
      by_cases hc : c = '.'
      · simp [hc]
      · simp [hc, hcs, Ne.symm hc]

theorem splitAtLastDot_eq_some {stem ext : FileName} :
    splitAtLastDot name = some (stem, ext) ↔ name = stem ++ '.' :: ext ∧ '.' ∉ ext := by
  induction name generalizing stem ext with
  | nil => simp [splitAtLastDot]
  | cons c cs ih =>
    rw [splitAtLastDot]
    cases h : splitAtLastDot cs with
    | some p =>
      obtain ⟨stem', ext'⟩ := p
      obtain ⟨hcs, hdot⟩ := ih.mp h
      constructor
      · intro heq
        cases heq
        exact ⟨by rw [hcs]; rfl, hdot⟩
      · rintro ⟨heq, hext⟩
        cases stem with
        | nil =>
          -- the dot of the split would be the last one
          obtain ⟨rfl, rfl⟩ := List.cons.inj heq
          exact absurd (hcs ▸ List.mem_append_right _ (by simp)) hext
        | cons a stem =>
          obtain ⟨rfl, htail⟩ := List.cons.inj heq
          cases Option.some.inj (h.symm.trans (ih.mpr ⟨htail, hext⟩))
          rfl
    | none =>
      have hcs := splitAtLastDot_eq_none.mp h
      by_cases hc : c = '.'
      · constructor
        · intro heq
          rw [if_pos hc] at heq
          cases heq
          exact ⟨by rw [hc]; rfl, hcs⟩
        · rintro ⟨heq, _⟩
          cases stem with
          | nil =>
            obtain ⟨_, rfl⟩ := List.cons.inj heq
            exact if_pos hc
          | cons a stem =>
            obtain ⟨_, htail⟩ := List.cons.inj heq
            exact absurd (htail ▸ List.mem_append_right _ (by simp)) hcs
      · constructor
        · intro heq
          rw [if_neg hc] at heq
          cases heq
        · rintro ⟨heq, _⟩
          have hmem : '.' ∈ c :: cs := heq ▸ List.mem_append_right _ (by simp)
          rcases List.mem_cons.mp hmem with hdot | hdot
          · exact absurd hdot.symm hc
          · exact absurd hdot hcs

/-- The listed names are those with the prefix and the suffix. -/
theorem isListed_iff :
    isListed name = true ↔ ∃ numeric, name = segmentPrefix ++ (numeric ++ segmentSuffix) := by
  rw [isListed, Bool.and_eq_true, beq_iff_eq, List.isPrefixOf_iff_prefix]
  constructor
  · rintro ⟨hext, hpre⟩
    rw [extension] at hext
    split at hext
    · cases hext
    · rename_i stem ext hsplit
      split at hext
      · cases hext
      · cases hext
        obtain ⟨rfl, _⟩ := splitAtLastDot_eq_some.mp hsplit
        rcases le_total segmentPrefix.length stem.length with hlen | hlen
        · obtain ⟨numeric, rfl⟩ :=
            List.prefix_of_prefix_length_le hpre (List.prefix_append _ _) hlen
          exact ⟨numeric, by simp [segmentSuffix]⟩
        · obtain ⟨rest, hrest⟩ :=
            List.prefix_of_prefix_length_le (List.prefix_append _ _) hpre hlen
          cases rest with
          | nil => exact ⟨[], by rw [List.append_nil] at hrest; rw [hrest]; rfl⟩
          | cons a rest =>
            -- the dot would be a letter of the prefix
            rw [← hrest, List.prefix_append_right_inj, List.cons_prefix_cons] at hpre
            have hmem : '.' ∈ segmentPrefix := by
              rw [← hrest, hpre.1]
              exact List.mem_append_right _ (by simp)
            exact absurd hmem (by decide)
  · rintro ⟨numeric, rfl⟩
    refine ⟨?_, List.prefix_append _ _⟩
    have hsplit : splitAtLastDot (segmentPrefix ++ (numeric ++ segmentSuffix)) =
        some (segmentPrefix ++ numeric, ['s', 'e', 'g']) :=
      splitAtLastDot_eq_some.mpr ⟨by simp [segmentSuffix], by decide⟩
    rw [extension, hsplit]
    simp [segmentPrefix]

theorem isListed_of_ok (h : segmentIdFromName name = .ok id) : isListed name = true := by
  obtain ⟨numeric, hname, _⟩ := segmentIdFromName_ok.mp h
  exact isListed_iff.mpr ⟨numeric, hname⟩

theorem segmentName_length (hid : id < 2 ^ 64) : (segmentName id).length = 28 := by
  simp [segmentName, segmentPrefix, segmentSuffix,
    padded_length (by decide) (hid.trans (by decide : 2 ^ 64 < 10 ^ 20))]

theorem segmentName_lt {a b : ℕ} (hb : b < 2 ^ 64) (hab : a < b) :
    segmentName a < segmentName b := by
  have hb' : b < 10 ^ 20 := hb.trans (by decide)
  have hlen : (padded 20 a).length = (padded 20 b).length := by
    rw [padded_length (by decide) (hab.trans hb'), padded_length (by decide) hb']
  have hlt := append_lt_append hlen (padded_lt (by decide) hb' hab) segmentSuffix segmentSuffix
  simpa [segmentName, segmentPrefix, List.cons_lt_cons_iff] using hlt

/-- The names are exact: an id is printed to the name that reads back as it, the names
ascend as the ids do, and what is read as an id is a numeral of it, perhaps with a plus
sign and not of twenty digits. -/
theorem segment_names_exact :
    (∀ id, id < 2 ^ 64 → segmentIdFromName (segmentName id) = .ok id ∧
      isListed (segmentName id) = true ∧ (segmentName id).length = 28) ∧
    (∀ a b, a < 2 ^ 64 → b < 2 ^ 64 → (segmentName a < segmentName b ↔ a < b)) ∧
    ∀ name id, segmentIdFromName name = .ok id ↔ ∃ digits,
      (name = segmentPrefix ++ (digits ++ segmentSuffix) ∨
        name = segmentPrefix ++ ('+' :: digits ++ segmentSuffix)) ∧
      digits ≠ [] ∧ IsNumeral digits ∧ Nat.ofDigitChars 10 digits 0 = id ∧ id < 2 ^ 64 := by
  refine ⟨fun id hid => ?_, fun a b ha hb => ?_, fun name id => ?_⟩
  · have hok := segmentIdFromName_segmentName hid
    exact ⟨hok, isListed_of_ok hok, segmentName_length hid⟩
  · constructor
    · intro h
      rcases lt_trichotomy a b with hlt | rfl | hgt
      · exact hlt
      · exact absurd h (List.lt_irrefl _)
      · exact absurd h (List.lt_asymm (segmentName_lt ha hgt))
    · exact segmentName_lt hb
  · rw [segmentIdFromName_ok]
    constructor
    · rintro ⟨numeric, rfl, hparse⟩
      obtain ⟨digits, rfl | rfl, hdigits⟩ := parseU64_eq_some.mp hparse
      · exact ⟨numeric, Or.inl rfl, hdigits⟩
      · exact ⟨digits, Or.inr rfl, hdigits⟩
    · rintro ⟨digits, rfl | rfl, hdigits⟩
      · exact ⟨digits, rfl, parseU64_eq_some.mpr ⟨digits, Or.inl rfl, hdigits⟩⟩
      · exact ⟨'+' :: digits, rfl, parseU64_eq_some.mpr ⟨digits, Or.inr rfl, hdigits⟩⟩

/-- The listed names that have no id. -/
def strays (names : List FileName) : List FileName :=
  names.filter (fun p => isListed p && !(segmentIdFromName p).isOk)

/-- `wal-+7.seg` is read as segment 7, which `segment_path` calls by another name. -/
theorem segment_names_exact_plus :
    segmentIdFromName (segmentPrefix ++ (['+', '7'] ++ segmentSuffix)) = .ok 7 ∧
      segmentName 7 ≠ segmentPrefix ++ (['+', '7'] ++ segmentSuffix) := by
  obtain ⟨hprint, _, hread⟩ := segment_names_exact
  constructor
  · refine (hread _ _).mpr ⟨['7'], Or.inr rfl, by simp, ?_, rfl, by decide⟩
    simp [IsNumeral]
  · intro h
    have hlen := (hprint 7 (by decide)).2.2
    rw [h] at hlen
    exact absurd hlen (by decide)

/-- A name without an id is what the error reports. -/
theorem isOk_eq_false : (segmentIdFromName name).isOk = false ↔
    segmentIdFromName name = .error (.invalidSegmentFilename name) := by
  cases h : segmentIdFromName name with
  | ok id => simp [Except.isOk, Except.toBool]
  | error e => simp [Except.isOk, Except.toBool, segmentIdFromName_error h]

theorem mem_strays : name ∈ strays names ↔
    name ∈ names ∧ isListed name = true ∧ (segmentIdFromName name).isOk = false := by
  simp [strays]

theorem listNames_perm (names : List FileName) :
    (listNames names).Perm (names.filter isListed) := List.mergeSort_perm _ _

theorem mem_listNames : name ∈ listNames names ↔ name ∈ names ∧ isListed name = true := by
  rw [(listNames_perm names).mem_iff, List.mem_filter]

theorem listNames_sorted (names : List FileName) :
    (listNames names).Pairwise (fun p q => sortKey p ≤ sortKey q) := by
  have h : (listNames names).Pairwise (fun p q => decide (sortKey p ≤ sortKey q) = true) := by
    refine List.pairwise_mergeSort (fun a b c hab hbc => ?_) (fun a b => ?_) _
    · exact decide_eq_true ((of_decide_eq_true hab).trans (of_decide_eq_true hbc))
    · simpa using le_total (sortKey a) (sortKey b)
  exact h.imp of_decide_eq_true

theorem sortKey_of_ok (h : segmentIdFromName name = .ok id) : sortKey name = id := by
  rw [sortKey, h]
  rfl

theorem sortKey_le (name : FileName) : sortKey name ≤ 2 ^ 64 - 1 := by
  cases h : segmentIdFromName name with
  | error e => simp [sortKey, h, Except.toOption]
  | ok id =>
    obtain ⟨_, _, hparse⟩ := segmentIdFromName_ok.mp h
    obtain ⟨_, _, _, _, _, hid⟩ := parseU64_eq_some.mp hparse
    rw [sortKey_of_ok h]
    omega

theorem unwrapIds_names {ids : List ℕ} (hids : ∀ id ∈ ids, id < 2 ^ 64) :
    unwrapIds (ids.map segmentName) = some ids := by
  induction ids with
  | nil => rfl
  | cons id ids ih =>
    rw [List.map_cons, unwrapIds, segmentIdFromName_segmentName (hids id (by simp)),
      ih (fun i hi => hids i (List.mem_cons_of_mem id hi))]
    rfl

theorem unwrapIds_ok {ps : List FileName}
    (h : ∀ p ∈ ps, (segmentIdFromName p).isOk = true) : ∃ ids, unwrapIds ps = some ids := by
  induction ps with
  | nil => exact ⟨[], rfl⟩
  | cons p ps ih =>
    obtain ⟨ids, hids⟩ := ih (fun q hq => h q (List.mem_cons_of_mem p hq))
    have hp := h p (by simp)
    rw [unwrapIds, hids]
    cases hok : segmentIdFromName p with
    | error e => simp [hok, Except.isOk, Except.toBool] at hp
    | ok id => exact ⟨id :: ids, rfl⟩

theorem unwrapIds_panics {ps : List FileName} {p : FileName} (hp : p ∈ ps)
    (h : (segmentIdFromName p).isOk = false) : unwrapIds ps = none := by
  induction ps with
  | nil => simp at hp
  | cons q ps ih =>
    rw [unwrapIds]
    cases hok : segmentIdFromName q with
    | error e => rfl
    | ok id =>
      rcases List.mem_cons.mp hp with rfl | hp
      · simp [hok, Except.isOk, Except.toBool] at h
      · rw [ih hp]
        rfl

/-- The strays are what is listed without an id, in the order of the listing or not. -/
theorem strays_length (names : List FileName) :
    (strays names).length =
      ((listNames names).filter (fun p => !(segmentIdFromName p).isOk)).length := by
  have h := (listNames_perm names).filter (fun p => !(segmentIdFromName p).isOk)
  rw [h.length_eq, List.filter_filter, strays]
  congr 2
  funext p
  exact Bool.and_comm _ _

/-- The directory whose listed files are those of `d` under their own names, and whatever
else is in it. -/
structure Names (names : List FileName) (d : Dir) : Prop where
  nodup : names.Nodup
  ids : ∀ id ∈ d.ids, id < 2 ^ 64
  listed : ∀ name, name ∈ names ∧ isListed name = true ↔ ∃ id ∈ d.ids, name = segmentName id

theorem Names.listNames_eq {d : Dir} (h : Names names d) :
    listNames names = (listSegments d).map segmentName := by
  have hmem : ∀ id, id ∈ listSegments d ↔ id ∈ d.ids := fun id => by simp [listSegments]
  have hok : ∀ id ∈ d.ids, segmentIdFromName (segmentName id) = .ok id :=
    fun id hid => segmentIdFromName_segmentName (h.ids id hid)
  have hkeys : ((listSegments d).map segmentName).Pairwise
      (fun p q => sortKey p ≤ sortKey q) := by
    rw [List.pairwise_map]
    have hsorted : (listSegments d).Pairwise (· ≤ ·) := Finset.pairwise_sort d.ids (· ≤ ·)
    refine hsorted.imp_of_mem (fun {a b} ha hb hab => ?_)
    rwa [sortKey_of_ok (hok a ((hmem a).mp ha)), sortKey_of_ok (hok b ((hmem b).mp hb))]
  have hnodup : ((listSegments d).map segmentName).Nodup := by
    refine List.Nodup.map_on (fun a ha b hb hab => ?_) (Finset.sort_nodup d.ids _)
    have := hok a ((hmem a).mp ha)
    rw [hab, hok b ((hmem b).mp hb)] at this
    exact (Except.ok.inj this).symm
  have hperm : (listNames names).Perm ((listSegments d).map segmentName) := by
    refine (List.perm_ext_iff_of_nodup ?_ hnodup).mpr (fun p => ?_)
    · exact ((listNames_perm names).nodup_iff).mpr (h.nodup.filter _)
    · rw [mem_listNames, h.listed, List.mem_map]
      constructor
      · rintro ⟨id, hid, rfl⟩
        exact ⟨id, (hmem id).mpr hid, rfl⟩
      · rintro ⟨id, hid, rfl⟩
        exact ⟨id, (hmem id).mp hid, rfl⟩
  refine hperm.eq_of_pairwise (fun p q hp hq hpq hqp => ?_) (listNames_sorted names) hkeys
  -- names with one key are names of one id
  obtain ⟨a, ha, rfl⟩ := (h.listed p).mp (mem_listNames.mp hp)
  obtain ⟨b, hb, rfl⟩ := List.mem_map.mp hq
  rw [sortKey_of_ok (hok a ha), sortKey_of_ok (hok b ((hmem b).mp hb))] at hpq hqp
  rw [le_antisymm hpq hqp]

/-- With at most the last name a stray, the other ids are unwrapped. -/
theorem existingIds_of_strays {last : FileName} (hlast : (listNames names).getLast? = some last)
    (h : ∀ p ∈ (listNames names).dropLast, (segmentIdFromName p).isOk = true) :
    ∃ ids, existingIds names =
      some ((segmentIdFromName last).map (fun id => (ids, some id))) := by
  obtain ⟨ids, hids⟩ := unwrapIds_ok h
  refine ⟨ids, ?_⟩
  rw [existingIds, hlast]
  simp only [hids]
  cases segmentIdFromName last <;> rfl

theorem Names.existingIds_eq {d : Dir} (h : Names names d) :
    existingIds names = some (.ok ((listSegments d).dropLast, (listSegments d).getLast?)) := by
  have hmem : ∀ id ∈ listSegments d, id < 2 ^ 64 :=
    fun id hid => h.ids id (by simpa [listSegments] using hid)
  rw [existingIds, h.listNames_eq, List.getLast?_map, ← List.map_dropLast,
    unwrapIds_names (fun id hid => hmem id (List.mem_of_mem_dropLast hid))]
  cases hlast : (listSegments d).getLast? with
  | none =>
    rw [List.getLast?_eq_none_iff.mp hlast]
    rfl
  | some id =>
    have hok := segmentIdFromName_segmentName (hmem id (List.mem_of_getLast? hlast))
    simp only [Option.map_some, hok]

theorem sortKey_stray (h : (segmentIdFromName name).isOk = false) : sortKey name = 2 ^ 64 - 1 := by
  rw [sortKey, isOk_eq_false.mp h]
  rfl

/-- The strays before the last listed name, and the last one if it is a stray. -/
theorem strays_length_eq {last : FileName} (hlast : (listNames names).getLast? = some last) :
    (strays names).length =
      ((listNames names).dropLast.filter (fun p => !(segmentIdFromName p).isOk)).length +
        if (segmentIdFromName last).isOk then 0 else 1 := by
  obtain ⟨front, hfront⟩ := List.getLast?_eq_some_iff.mp hlast
  rw [strays_length, hfront, List.dropLast_concat, List.filter_append, List.length_append]
  cases hok : (segmentIdFromName last).isOk <;> simp [hok]

/-- When there is no other stray than perhaps the last name, the names before it have ids. -/
theorem front_ok {last : FileName} (hlast : (listNames names).getLast? = some last)
    (h : (strays names).length ≤ if (segmentIdFromName last).isOk then 0 else 1) :
    ∀ p ∈ (listNames names).dropLast, (segmentIdFromName p).isOk = true := by
  intro p hp
  by_contra hbad
  have hmem : p ∈ (listNames names).dropLast.filter (fun p => !(segmentIdFromName p).isOk) :=
    List.mem_filter.mpr ⟨hp, by simpa using hbad⟩
  have := List.length_pos_of_mem hmem
  have := strays_length_eq hlast
  omega

/-- A single stray sorts last, when no file has the largest id. -/
theorem stray_last {s : FileName} (hs : strays names = [s])
    (hmax : ∀ p ∈ names, segmentIdFromName p ≠ .ok (2 ^ 64 - 1)) :
    (listNames names).getLast? = some s := by
  obtain ⟨hnames, hlisted, hbad⟩ := mem_strays.mp (hs ▸ List.mem_singleton_self s)
  have hin : s ∈ listNames names := mem_listNames.mpr ⟨hnames, hlisted⟩
  cases hlast : (listNames names).getLast? with
  | none => simp [List.getLast?_eq_none_iff.mp hlast] at hin
  | some last =>
    obtain ⟨front, hfront⟩ := List.getLast?_eq_some_iff.mp hlast
    have hle : sortKey s ≤ sortKey last := by
      rw [hfront] at hin
      rcases List.mem_append.mp hin with hin | hin
      · have hsorted := hfront ▸ listNames_sorted names
        exact (List.pairwise_append.mp hsorted).2.2 s hin last (by simp)
      · exact (List.mem_singleton.mp hin) ▸ le_rfl
    obtain ⟨hnames', hlisted'⟩ :=
      mem_listNames.mp (hfront ▸ List.mem_append_right front (by simp) : last ∈ listNames names)
    have hlast' : (segmentIdFromName last).isOk = false := by
      cases hok : segmentIdFromName last with
      | ok id =>
        have hid : id = 2 ^ 64 - 1 := by
          have := sortKey_le last
          rw [sortKey_stray hbad] at hle
          rw [sortKey_of_ok hok] at hle this
          omega
        exact absurd (hid ▸ hok) (hmax last hnames')
      | error e => rfl
    have hstray : last ∈ [s] := hs ▸ mem_strays.mpr ⟨hnames', hlisted', hlast'⟩
    rw [List.mem_singleton.mp hstray]

/-- What `open` takes from a directory, in whatever order its files are returned. Under
their own names the segments are found by ascending id. One listed name without an id makes
`open` fail, unless it sorts before the file of the largest id; two make it panic. -/
theorem listing_opens (names : List FileName) :
    (∀ d, Names names d →
      listNames names = (listSegments d).map segmentName ∧
      existingIds names = some (.ok ((listSegments d).dropLast, (listSegments d).getLast?))) ∧
    (strays names = [] → ∃ found, existingIds names = some (.ok found)) ∧
    (∀ s, strays names = [s] → (∀ p ∈ names, segmentIdFromName p ≠ .ok (2 ^ 64 - 1)) →
      existingIds names = some (.error (.invalidSegmentFilename s))) ∧
    (2 ≤ (strays names).length → existingIds names = none) := by
  refine ⟨fun d h => ⟨h.listNames_eq, h.existingIds_eq⟩, fun hnone => ?_, fun s hs hmax => ?_,
    fun htwo => ?_⟩
  · cases hlast : (listNames names).getLast? with
    | none => exact ⟨([], none), by rw [existingIds, hlast]⟩
    | some last =>
      obtain ⟨ids, hids⟩ := existingIds_of_strays hlast (front_ok hlast (by simp [hnone]))
      cases hok : segmentIdFromName last with
      | ok id => exact ⟨(ids, some id), by rw [hids, hok]; rfl⟩
      | error e =>
        have hmem := mem_listNames.mp (List.mem_of_getLast? hlast)
        have hstray : last ∈ strays names :=
          mem_strays.mpr ⟨hmem.1, hmem.2, by rw [hok]; rfl⟩
        simp [hnone] at hstray
  · have hlast := stray_last hs hmax
    obtain ⟨_, _, hbad⟩ := mem_strays.mp (hs ▸ List.mem_singleton_self s)
    obtain ⟨ids, hids⟩ :=
      existingIds_of_strays hlast (front_ok hlast (by simp [hs, hbad]))
    rw [hids, isOk_eq_false.mp hbad]
    rfl
  · cases hlast : (listNames names).getLast? with
    | none =>
      have := strays_length names
      rw [List.getLast?_eq_none_iff.mp hlast, List.filter_nil, List.length_nil] at this
      omega
    | some last =>
      have hlen := strays_length_eq hlast
      have hpos : 0 < ((listNames names).dropLast.filter
          (fun p => !(segmentIdFromName p).isOk)).length := by
        split at hlen <;> omega
      obtain ⟨p, hp⟩ := List.exists_mem_of_length_pos hpos
      obtain ⟨hfront, hbad⟩ := List.mem_filter.mp hp
      rw [existingIds, hlast]
      simp only [unwrapIds_panics hfront (by simpa using hbad)]

/-- Two segments, returned in the wrong order, beside the checkpoint file. -/
theorem listing_opens_two_segments :
    existingIds [segmentName 2, ['c', 'k'], segmentName 1] = some (.ok ([1], some 2)) := by
  have hnames : Names [segmentName 2, ['c', 'k'], segmentName 1]
      ⟨[1, 2].toFinset, fun _ => [], none⟩ := by
    refine ⟨by decide, by simp, fun name => ?_⟩
    constructor
    · rintro ⟨hmem, hlisted⟩
      simp only [List.mem_cons, List.not_mem_nil, or_false] at hmem
      rcases hmem with rfl | rfl | rfl
      · exact ⟨2, by simp, rfl⟩
      · exact absurd hlisted (by decide)
      · exact ⟨1, by simp, rfl⟩
    · rintro ⟨id, hid, rfl⟩
      have hid : id = 1 ∨ id = 2 := by simpa using hid
      rcases hid with rfl | rfl
      · exact ⟨by simp, by decide⟩
      · exact ⟨by simp, by decide⟩
  have hlist : listSegments ⟨[1, 2].toFinset, fun _ => [], none⟩ = [1, 2] :=
    listSegments_eq (by simp) rfl
  have h := ((listing_opens _).1 _ hnames).2
  rwa [hlist] at h

end WalSegmentNames
