import DistributedWal.LittleEndianCodec

/-! # The on-disk entry format and the read loop of a segment

An entry is a 16-byte header (sequence, payload length, checksum of the payload)
and the payload. The checksum function comes from outside the repository and stays
a parameter: nothing here depends on which function it is.
-/
namespace WalEntry

open LittleEndianCodec

/-- `crc32fast::hash`. -/
class Crc32 where
  hash : Bytes → UInt32

/-- One byte of the reflected IEEE 802.3 polynomial division. -/
def crcByte (crc : UInt32) (b : UInt8) : UInt32 :=
  (List.range 8).foldl
    (fun c _ => if c &&& 1 = 1 then (c >>> 1) ^^^ 0xEDB88320 else c >>> 1)
    (crc ^^^ b.toUInt32)

/-- The checksum that `crc32fast` documents: CRC-32 of IEEE 802.3. -/
abbrev ieee : Crc32 := ⟨fun bs => bs.foldl crcByte 0xFFFFFFFF ^^^ 0xFFFFFFFF⟩

example : ieee.hash [49, 50, 51, 52, 53, 54, 55, 56, 57] = 0xCBF43926 := by decide +kernel

def headerSize : ℕ := 16

structure Entry where
  sequence : ℕ
  data : Bytes
  deriving DecidableEq, Repr

inductive IoKind where
  | notFound
  | alreadyExists
  | other
  deriving DecidableEq, Repr

inductive WalError where
  | io (kind : IoKind)
  | checksumMismatch (offset : ℕ) (stored computed : ℕ)
  | unexpectedEof (offset : ℕ)
  | segmentFull (size max entry : ℕ)
  deriving DecidableEq, Repr

variable [Crc32]

/-- The length field is `data.len() as u32`: it keeps the length modulo `2 ^ 32`. -/
def encode (sequence : ℕ) (data : Bytes) : Bytes :=
  leBytes 8 sequence ++ (leBytes 4 (data.length % 2 ^ 32) ++
    (leBytes 4 (Crc32.hash data).toNat ++ data))

def decode (buf : Bytes) (bufOffset : ℕ) : Except WalError (Entry × ℕ) :=
  if buf.length < headerSize then .error (.unexpectedEof bufOffset)
  else
    let sequence := leValue (buf.take 8)
    let dataLen := leValue ((buf.drop 8).take 4)
    let storedCrc := leValue ((buf.drop 12).take 4)
    let total := headerSize + dataLen
    if buf.length < total then .error (.unexpectedEof bufOffset)
    else
      let data := (buf.drop headerSize).take dataLen
      let computedCrc := (Crc32.hash data).toNat
      if storedCrc ≠ computedCrc then
        .error (.checksumMismatch bufOffset storedCrc computedCrc)
      else .ok (⟨sequence, data⟩, total)

theorem decode_consumed {buf : Bytes} {k : ℕ} {e : Entry} {consumed : ℕ}
    (h : decode buf k = .ok (e, consumed)) :
    headerSize ≤ consumed ∧ consumed ≤ buf.length := by
  unfold decode at h
  split at h
  · cases h
  · dsimp only at h
    split at h
    · cases h
    · split at h
      · cases h
      · cases h
        omega

/-- The `while offset < raw.len()` loop of `read_entries`: `rest` is `raw[offset..]`. -/
def readLoop (rest : Bytes) (offset : ℕ) : Except WalError (List Entry) :=
  if rest = [] then .ok []
  else
    match _h : decode rest offset with
    | .error e => .error e
    | .ok (entry, consumed) =>
      match readLoop (rest.drop consumed) (offset + consumed) with
      | .error e => .error e
      | .ok entries => .ok (entry :: entries)
termination_by rest.length
decreasing_by
  have hc := decode_consumed _h
  have : headerSize = 16 := rfl
  rw [List.length_drop]
  omega

def readRaw (raw : Bytes) : Except WalError (List Entry) := readLoop raw 0

/-- The fields of an entry the format can hold: a `u64` sequence, a `u32` length. -/
def Entry.Fits (e : Entry) : Prop := e.sequence < 2 ^ 64 ∧ e.data.length < 2 ^ 32

def Entry.encoded (e : Entry) : Bytes := encode e.sequence e.data

def encodeAll (es : List Entry) : Bytes := (es.map Entry.encoded).flatten

@[simp] theorem encode_length (sequence : ℕ) (data : Bytes) :
    (encode sequence data).length = headerSize + data.length := by
  simp [encode, headerSize]
  omega

@[simp] theorem encodeAll_nil : encodeAll [] = [] := rfl

@[simp] theorem encodeAll_cons (e : Entry) (es : List Entry) :
    encodeAll (e :: es) = e.encoded ++ encodeAll es := rfl

@[simp] theorem encodeAll_append (es fs : List Entry) :
    encodeAll (es ++ fs) = encodeAll es ++ encodeAll fs := by
  simp [encodeAll]

theorem Entry.encoded_ne_nil (e : Entry) : e.encoded ≠ [] := by
  intro h
  have := congrArg List.length h
  simp [Entry.encoded, headerSize] at this

theorem drop_header (sequence : ℕ) (data rest : Bytes) :
    (encode sequence data ++ rest).drop headerSize = data ++ rest := by
  have h : encode sequence data ++ rest = (leBytes 8 sequence ++
      leBytes 4 (data.length % 2 ^ 32) ++ leBytes 4 (Crc32.hash data).toNat) ++
      (data ++ rest) := by
    simp [encode, List.append_assoc]
  rw [h]
  exact List.drop_left' (by simp [headerSize])

/-- Decoding reads back the entry at the front of the buffer, whatever follows it. -/
theorem decode_encode {e : Entry} (he : e.Fits) (rest : Bytes) (k : ℕ) :
    decode (e.encoded ++ rest) k = .ok (e, headerSize + e.data.length) := by
  obtain ⟨hs, hd⟩ := he
  have hlen : ¬ (e.encoded ++ rest).length < headerSize := by
    simp [Entry.encoded]
    omega
  have hseq : leValue ((e.encoded ++ rest).take 8) = e.sequence := by
    simp only [Entry.encoded, encode, List.append_assoc, take_leBytes]
    exact leValue_leBytes_of_lt hs
  have hcount : leValue (((e.encoded ++ rest).drop 8).take 4) = e.data.length := by
    simp only [Entry.encoded, encode, List.append_assoc, drop_leBytes, take_leBytes,
      Nat.mod_eq_of_lt hd]
    exact leValue_leBytes_of_lt hd
  have hcrc : leValue (((e.encoded ++ rest).drop 12).take 4) =
      (Crc32.hash e.data).toNat := by
    have : (e.encoded ++ rest).drop 12 = ((e.encoded ++ rest).drop 8).drop 4 := by
      rw [List.drop_drop]
    rw [this]
    simp only [Entry.encoded, encode, List.append_assoc, drop_leBytes, take_leBytes]
    exact leValue_leBytes_of_lt (Crc32.hash e.data).toNat_lt
  have hdata : ((e.encoded ++ rest).drop headerSize).take e.data.length = e.data := by
    rw [Entry.encoded, drop_header]
    exact List.take_left' rfl
  have htotal : ¬ (e.encoded ++ rest).length < headerSize + e.data.length := by
    simp [Entry.encoded]
  rw [decode, if_neg hlen]
  simp only [hseq, hcount, hcrc, hdata, if_neg htotal, ne_eq, not_true_eq_false, if_false]

/-- What decodes was encoded: the consumed bytes are the encoding of the entry. -/
theorem decode_sound {buf : Bytes} {k consumed : ℕ} {e : Entry}
    (h : decode buf k = .ok (e, consumed)) :
    e.Fits ∧ consumed = headerSize + e.data.length ∧
      buf = e.encoded ++ buf.drop consumed := by
  unfold decode at h
  split at h
  · cases h
  rename_i hhead
  dsimp only at h
  split at h
  · cases h
  rename_i htotal
  split at h
  · cases h
  rename_i hcrc
  simp only [ne_eq, Decidable.not_not] at hcrc
  cases h
  set n := leValue ((buf.drop 8).take 4) with hn
  have h16 : headerSize = 16 := rfl
  have l8 : (buf.take 8).length = 8 := by simp; omega
  have l4 : ((buf.drop 8).take 4).length = 4 := by simp; omega
  have l4' : ((buf.drop 12).take 4).length = 4 := by simp; omega
  have hlen : ((buf.drop headerSize).take n).length = n := by simp; omega
  have hn32 : n < 2 ^ 32 := by
    have := leValue_lt ((buf.drop 8).take 4)
    rw [l4] at this
    exact this
  have hseq : leValue (buf.take 8) < 2 ^ 64 := by
    have := leValue_lt (buf.take 8)
    rw [l8] at this
    exact this
  refine ⟨⟨hseq, by simpa only [hlen] using hn32⟩, by rw [hlen], ?_⟩
  simp only [Entry.encoded, encode, hlen, Nat.mod_eq_of_lt hn32, ← hcrc]
  rw [leBytes_of_leValue l8, hn, leBytes_of_leValue l4, leBytes_of_leValue l4', ← hn]
  -- the four fields and the rest are consecutive slices of the buffer
  have s1 : buf = buf.take 8 ++ buf.drop 8 := (List.take_append_drop 8 buf).symm
  have s2 : buf.drop 8 = (buf.drop 8).take 4 ++ buf.drop 12 := by
    rw [← List.drop_drop (i := 4) (j := 8)]
    exact (List.take_append_drop 4 _).symm
  have s3 : buf.drop 12 = (buf.drop 12).take 4 ++ buf.drop headerSize := by
    rw [h16, ← List.drop_drop (i := 4) (j := 12)]
    exact (List.take_append_drop 4 _).symm
  have s4 : buf.drop headerSize =
      (buf.drop headerSize).take n ++ buf.drop (headerSize + n) := by
    rw [← List.drop_drop (i := n) (j := headerSize)]
    exact (List.take_append_drop n _).symm
  simp only [List.append_assoc]
  rw [← s4, ← s3, ← s2, ← s1]

theorem readLoop_cons {rest : Bytes} (hne : rest ≠ []) (offset : ℕ) :
    readLoop rest offset =
      match decode rest offset with
      | .error e => .error e
      | .ok (entry, consumed) =>
        match readLoop (rest.drop consumed) (offset + consumed) with
        | .error e => .error e
        | .ok entries => .ok (entry :: entries) := by
  rw [readLoop, if_neg hne]
  split <;> simp_all

@[simp] theorem readLoop_nil (offset : ℕ) : readLoop [] offset = .ok [] := by
  rw [readLoop, if_pos rfl]

theorem readLoop_encoded {e : Entry} (he : e.Fits) (rest : Bytes) (offset : ℕ) :
    readLoop (e.encoded ++ rest) offset =
      (readLoop rest (offset + e.encoded.length)).map (e :: ·) := by
  have hne : e.encoded ++ rest ≠ [] := by
    simp [e.encoded_ne_nil]
  have hlen : headerSize + e.data.length = e.encoded.length := (encode_length _ _).symm
  have hdrop : (e.encoded ++ rest).drop e.encoded.length = rest := List.drop_left' rfl
  rw [readLoop_cons hne, decode_encode he]
  simp only [hlen, hdrop]
  cases readLoop rest (offset + e.encoded.length) <;> rfl

/-- A stream of encoded entries reads back, up to what the rest of the bytes read as. -/
theorem readLoop_encodeAll_append {es : List Entry} (hes : ∀ e ∈ es, e.Fits)
    (rest : Bytes) (offset : ℕ) :
    readLoop (encodeAll es ++ rest) offset =
      (readLoop rest (offset + (encodeAll es).length)).map (es ++ ·) := by
  induction es generalizing offset with
  | nil =>
    simp only [encodeAll_nil, List.nil_append, List.length_nil, Nat.add_zero]
    cases readLoop rest offset <;> rfl
  | cons e es ih =>
    rw [encodeAll_cons, List.append_assoc, readLoop_encoded (hes e (by simp)),
      ih (fun f hf => hes f (by simp [hf])), List.length_append, Nat.add_assoc]
    cases readLoop rest (offset + (e.encoded.length + (encodeAll es).length)) <;> rfl

theorem readLoop_encodeAll {es : List Entry} (hes : ∀ e ∈ es, e.Fits) (offset : ℕ) :
    readLoop (encodeAll es) offset = .ok es := by
  have h := readLoop_encodeAll_append hes [] offset
  simpa [Except.map] using h

theorem readRaw_encodeAll {es : List Entry} (hes : ∀ e ∈ es, e.Fits) :
    readRaw (encodeAll es) = .ok es := readLoop_encodeAll hes 0

/-- Whatever the loop accepts is the concatenation of the encodings of what it returns. -/
theorem readLoop_sound {raw : Bytes} {offset : ℕ} {es : List Entry}
    (h : readLoop raw offset = .ok es) : raw = encodeAll es ∧ ∀ e ∈ es, e.Fits := by
  induction es generalizing raw offset with
  | nil =>
    by_cases hne : raw = []
    · exact ⟨by simp [hne], by simp⟩
    · rw [readLoop_cons hne] at h
      split at h
      · cases h
      · split at h <;> cases h
  | cons e es ih =>
    by_cases hne : raw = []
    · rw [hne, readLoop_nil] at h
      cases h
    · rw [readLoop_cons hne] at h
      split at h
      · cases h
      · rename_i f consumed hd
        split at h
        · cases h
        · rename_i tail htail
          cases h
          obtain ⟨hfit, _, hbuf⟩ := decode_sound hd
          obtain ⟨hrest, hfits⟩ := ih htail
          refine ⟨?_, by simpa using ⟨hfit, hfits⟩⟩
          rw [encodeAll_cons, ← hrest]
          exact hbuf

theorem readRaw_ok_iff (raw : Bytes) (es : List Entry) :
    readRaw raw = .ok es ↔ raw = encodeAll es ∧ ∀ e ∈ es, e.Fits := by
  constructor
  · exact readLoop_sound
  · rintro ⟨rfl, hes⟩
    exact readRaw_encodeAll hes

end WalEntry
