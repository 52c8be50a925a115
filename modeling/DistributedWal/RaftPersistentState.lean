import DistributedWal.LittleEndianCodec

/-! # The durable term and vote

`raft_state.bin` holds the current term and the vote, written through a temporary file
and a rename. A length of 0 says that there is no vote.
-/
namespace RaftPersistentState

open LittleEndianCodec

/-- A unique name for a node within the cluster. -/
abbrev NodeId := String

/-- `as_bytes`: the UTF-8 encoding of an id. -/
def idBytes (id : NodeId) : Bytes := id.toByteArray.data.toList

/-- `String::from_utf8(..).ok()`. -/
def idFromBytes (bytes : Bytes) : Option NodeId := String.fromUTF8? ⟨bytes.toArray⟩

def encode (term : ℕ) (votedFor : Option NodeId) : Bytes :=
  let s := idBytes (votedFor.getD "")
  leBytes 8 term ++ (leBytes 4 (s.length % 2 ^ 32) ++ s)

def decode (bytes : Bytes) : ℕ × Option NodeId :=
  if bytes.length < 12 then (0, none)
  else
    let term := leValue (bytes.take 8)
    let len := leValue ((bytes.drop 8).take 4)
    let votedFor :=
      if len = 0 ∨ bytes.length < 12 + len then none
      else idFromBytes ((bytes.drop 12).take len)
    (term, votedFor)

/-- `file` is the content of `raft_state.bin`. -/
structure PersistentState where
  file : Option Bytes
  currentTerm : ℕ
  votedFor : Option NodeId
  deriving DecidableEq

def PersistentState.open (file : Option Bytes) : PersistentState :=
  match file with
  | none => ⟨none, 0, none⟩
  | some bytes => ⟨file, (decode bytes).1, (decode bytes).2⟩

def PersistentState.persist (ps : PersistentState) : PersistentState :=
  { ps with file := some (encode ps.currentTerm ps.votedFor) }

def PersistentState.advanceTerm (ps : PersistentState) (newTerm : ℕ) : PersistentState :=
  PersistentState.persist { ps with currentTerm := newTerm, votedFor := none }

def PersistentState.recordVote (ps : PersistentState) (candidate : NodeId) :
    PersistentState :=
  PersistentState.persist { ps with votedFor := some candidate }

/-- An id that the vote field of the file can tell from "no vote". -/
def Storable (id : NodeId) : Prop := 0 < (idBytes id).length ∧ (idBytes id).length < 2 ^ 32

instance (id : NodeId) : Decidable (Storable id) := by
  unfold Storable
  infer_instance

theorem idFromBytes_idBytes (id : NodeId) : idFromBytes (idBytes id) = some id := by
  have hvalid : ByteArray.IsValidUTF8 ⟨(idBytes id).toArray⟩ := by
    simpa [idBytes] using id.isValidUTF8
  rw [idFromBytes, String.fromUTF8?, dif_pos hvalid]
  congr 1

theorem idBytes_of_idFromBytes {bytes : Bytes} {id : NodeId} (h : idFromBytes bytes = some id) :
    idBytes id = bytes := by
  rw [idFromBytes, String.fromUTF8?] at h
  split at h
  · cases h
    rfl
  · cases h

theorem idBytes_eq_nil {id : NodeId} (h : (idBytes id).length = 0) : id = "" := by
  apply String.toByteArray_inj.mp
  have hnil : id.toByteArray.data.toList = [] := List.length_eq_zero_iff.mp h
  cases hb : id.toByteArray with
  | mk data =>
    rw [hb] at hnil
    have : data = #[] := by simpa using hnil
    rw [this]
    rfl

theorem Storable.of_ne {id : NodeId} (hne : id ≠ "") (hlen : (idBytes id).length < 2 ^ 32) :
    Storable id :=
  ⟨Nat.pos_of_ne_zero (fun h => hne (idBytes_eq_nil h)), hlen⟩

/-- The file says the term, and of the vote the bytes that the length field counts. -/
theorem decode_encode_eq {term : ℕ} (ht : term < 2 ^ 64) (votedFor : Option NodeId) :
    decode (encode term votedFor) =
      (term, if (idBytes (votedFor.getD "")).length % 2 ^ 32 = 0 then none
        else idFromBytes ((idBytes (votedFor.getD "")).take
          ((idBytes (votedFor.getD "")).length % 2 ^ 32))) := by
  set s := idBytes (votedFor.getD "") with hs
  have henc : encode term votedFor = leBytes 8 term ++ (leBytes 4 (s.length % 2 ^ 32) ++ s) :=
    rfl
  have hlen : (encode term votedFor).length = 12 + s.length := by
    rw [henc]
    simp
    omega
  have hdrop : (encode term votedFor).drop 12 = s := by
    rw [henc, show 12 = 8 + 4 from rfl, ← List.drop_drop, drop_leBytes, drop_leBytes]
  have hmod : s.length % 2 ^ 32 < 256 ^ 4 := Nat.mod_lt _ (by decide)
  have hcount : leValue (((encode term votedFor).drop 8).take 4) = s.length % 2 ^ 32 := by
    rw [henc, drop_leBytes, take_leBytes, leValue_leBytes_of_lt hmod]
  have hterm : leValue ((encode term votedFor).take 8) = term := by
    rw [henc, take_leBytes, leValue_leBytes_of_lt (w := 8) ht]
  have hle : ¬ 12 + s.length < 12 + s.length % 2 ^ 32 := by
    have := Nat.mod_le s.length (2 ^ 32)
    omega
  rw [decode, if_neg (by omega)]
  simp only [hterm, hcount, hdrop, hlen, hle, or_false]

/-- The file says the term and, for a storable vote, the vote. -/
theorem decode_encode {term : ℕ} (ht : term < 2 ^ 64) {votedFor : Option NodeId}
    (hv : ∀ id, votedFor = some id → Storable id) :
    decode (encode term votedFor) = (term, votedFor) := by
  rw [decode_encode_eq ht]
  cases votedFor with
  | none => simp [idBytes]
  | some id =>
    obtain ⟨hpos, hlt⟩ := hv id rfl
    simp only [Option.getD_some, Nat.mod_eq_of_lt hlt, if_neg (Nat.ne_of_gt hpos),
      List.take_length, idFromBytes_idBytes]

/-- The term survives whatever the vote is. -/
theorem decode_encode_term {term : ℕ} (ht : term < 2 ^ 64) (votedFor : Option NodeId) :
    (decode (encode term votedFor)).1 = term := by
  rw [decode_encode_eq ht]

/-- A vote is read back exactly when its id is storable. -/
theorem decode_encode_iff {term : ℕ} (ht : term < 2 ^ 64) (id : NodeId) :
    decode (encode term (some id)) = (term, some id) ↔ Storable id := by
  constructor
  · intro h
    rw [decode_encode_eq ht, Option.getD_some, Prod.mk.injEq] at h
    obtain ⟨_, h⟩ := h
    split at h
    · cases h
    · rename_i hne
      have hlen := congrArg List.length (idBytes_of_idFromBytes h)
      rw [List.length_take] at hlen
      have hmod : (idBytes id).length % 2 ^ 32 < 2 ^ 32 := Nat.mod_lt _ (by decide)
      have hle := Nat.mod_le (idBytes id).length (2 ^ 32)
      exact ⟨by omega, by omega⟩
  · intro h
    apply decode_encode ht
    intro id' hid
    cases hid
    exact h

end RaftPersistentState
