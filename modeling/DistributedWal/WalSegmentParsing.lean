import DistributedWal.SelfDelimiting
import DistributedWal.WalEntry

/-! # What the read loop of a segment accepts

The loop accepts the concatenations of encoded entries and nothing else. An entry is
self-delimiting, so the entries are determined by the bytes, and bytes that end inside
an entry are refused.
-/
namespace WalSegmentParsing

open LittleEndianCodec WalEntry SelfDelimiting

variable [Crc32]

/-- The entry at the front of a buffer. -/
def frontEntry (buf : Bytes) : Option Entry := (decode buf 0).toOption.map Prod.fst

theorem entry_readsFront : ReadsFront frontEntry Entry.encoded Entry.Fits := by
  intro e he rest
  rw [frontEntry, decode_encode he]
  rfl

/-- Encoding undoes decoding on the bytes that decoding consumed. -/
theorem encoded_of_decode {buf : Bytes} {k consumed : ℕ} {e : Entry}
    (h : decode buf k = .ok (e, consumed)) :
    consumed = headerSize + e.data.length ∧ e.encoded = buf.take consumed := by
  obtain ⟨_, hlen, hbuf⟩ := decode_sound h
  refine ⟨hlen, ?_⟩
  have henc : consumed = e.encoded.length := hlen.trans (encode_length _ _).symm
  rw [hbuf]
  exact (List.take_left' henc.symm).symm

theorem encodeAll_injective {es fs : List Entry} (hes : ∀ e ∈ es, e.Fits)
    (hfs : ∀ f ∈ fs, f.Fits) (h : encodeAll es = encodeAll fs) : es = fs := by
  have hread := readRaw_encodeAll hes
  rw [h, readRaw_encodeAll hfs] at hread
  exact (Except.ok.inj hread).symm

/-- Whatever follows the last whole entry must be nothing. -/
theorem readLoop_cut {e : Entry} (he : e.Fits) {part : Bytes} (hpart : Cut part e.encoded)
    (hne : part ≠ []) (offset : ℕ) (xs : List Entry) : readLoop part offset ≠ .ok xs := by
  intro h
  obtain ⟨hraw, hfits⟩ := readLoop_sound h
  cases xs with
  | nil => exact hne hraw
  | cons x xs =>
    have hfront : x.encoded <+: part := ⟨encodeAll xs, hraw.symm⟩
    obtain rfl := entry_readsFront.prefixFree x e (hfits x (by simp)) he
      (hfront.trans hpart.1)
    exact absurd hpart.length_lt (Nat.not_lt.mpr hfront.length_le)

theorem readRaw_cut {es : List Entry} (hes : ∀ f ∈ es, f.Fits) {e : Entry} (he : e.Fits)
    {part : Bytes} (hpart : Cut part e.encoded) (hne : part ≠ []) (xs : List Entry) :
    readRaw (encodeAll es ++ part) ≠ .ok xs := by
  intro h
  rw [readRaw, readLoop_encodeAll_append hes] at h
  cases hread : readLoop part (0 + (encodeAll es).length) with
  | error err =>
    rw [hread] at h
    cases h
  | ok ys => exact readLoop_cut he hpart hne _ ys hread

/-- For every checksum function: the bytes that are accepted, what decoding and encoding
undo of each other, the uniqueness of the entries, and the refusal of a cut entry. -/
theorem segment_parsing_exact :
    (∀ raw es, readRaw raw = .ok es ↔ raw = encodeAll es ∧ ∀ e ∈ es, e.Fits) ∧
      (∀ (e : Entry) rest k, e.Fits →
        decode (e.encoded ++ rest) k = .ok (e, headerSize + e.data.length)) ∧
      (∀ buf k (e : Entry) consumed, decode buf k = .ok (e, consumed) →
        consumed = headerSize + e.data.length ∧ e.encoded = buf.take consumed) ∧
      (∀ es fs : List Entry, (∀ e ∈ es, e.Fits) → (∀ f ∈ fs, f.Fits) →
        encodeAll es = encodeAll fs → es = fs) ∧
      ∀ (es : List Entry) (e : Entry) part, (∀ f ∈ es, f.Fits) → e.Fits →
        Cut part e.encoded → part ≠ [] → ∀ xs, readRaw (encodeAll es ++ part) ≠ .ok xs := by
  refine ⟨readRaw_ok_iff, ?_, ?_, ?_, ?_⟩
  · intro e rest k he
    exact decode_encode he rest k
  · intro buf k e consumed h
    exact encoded_of_decode h
  · intro es fs hes hfs h
    exact encodeAll_injective hes hfs h
  · intro es e part hes he hpart hne xs
    exact readRaw_cut hes he hpart hne xs

omit [Crc32] in
/-- A stream of three entries, the last of them empty. -/
theorem segment_parsing_exact_three_entries :
    @readRaw ieee (@encodeAll ieee [⟨1, [97]⟩, ⟨2, [98, 98]⟩, ⟨3, []⟩]) =
      .ok [⟨1, [97]⟩, ⟨2, [98, 98]⟩, ⟨3, []⟩] :=
  ((@segment_parsing_exact ieee).1 _ _).mpr ⟨rfl, by simp [Entry.Fits]⟩

end WalSegmentParsing
