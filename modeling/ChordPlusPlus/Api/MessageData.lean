import ChordPlusPlus.Dht.NodeInformation
import ChordPlusPlus.Foundation.Slice
import ChordPlusPlus.Util.Word16

/-!
# The messages of the API

The headers and messages of `message_data.cpp`.  Each message has a constructor that decodes a
buffer (`ofBytes`) and most have one that encodes its fields into a new buffer (`build`).

The decoding constructors read in their member initialisers and test the size only afterwards, in
their bodies.  A read outside the buffer, or from a range whose end is before its start, has no
defined outcome; it is a fault of its own, apart from the exceptions that the code throws.
-/

namespace ChordPlusPlus

namespace Api

/-- The exceptions of the API, with their texts. -/
inductive Exception
  /-- `std::runtime_error`. -/
  | runtimeError (what : String)
  /-- `Request::bad_buffer_size`. -/
  | badBufferSize (what : String)
  /-- `Request::bad_request`. -/
  | badRequest (what : String)
deriving DecidableEq

/-- What may keep a constructor from returning. -/
inductive Fault
  | thrown (e : Exception)
  /-- A buffer is read or written outside its bounds. -/
  | outOfBounds
deriving DecidableEq

/-- The outcome of a constructor. -/
abbrev Outcome (α : Type*) := Except Fault α

/-- The vector built from the range between two positions of the buffer. -/
def readRange (bytes : Bytes) (first last : ℕ) : Outcome Bytes :=
  match Slice.read bytes first last with
  | some range => .ok range
  | none => .error .outOfBounds

/-! ## Message types -/

/-- `util::constants::DHT_PUT`. -/
def dhtPut : UInt16 := 650

/-- `util::constants::DHT_GET`. -/
def dhtGet : UInt16 := 651

/-- `util::constants::DHT_SUCCESS`. -/
def dhtSuccess : UInt16 := 652

/-- `util::constants::DHT_FAILURE`. -/
def dhtFailure : UInt16 := 653

/-- `util::constants::DHT_PUT_KEY_IS_HASH_OF_DATA`. -/
def dhtPutKeyIsHashOfData : UInt16 := 654

/-- `util::constants::DHT_GET_KEY_IS_HASH_OF_DATA`. -/
def dhtGetKeyIsHashOfData : UInt16 := 655

/-! ## Headers -/

/-- `MessageHeader::MessageHeaderRaw`, the fields as they lie in memory. -/
structure MessageHeaderRaw where
  size : UInt16
  msgType : UInt16

/-- `sizeof(MessageHeader::MessageHeaderRaw)`. -/
def sizeofHeader : ℕ := 4

/-- The raw header that lies in the buffer from index `i` on. -/
def MessageHeaderRaw.load (bytes : Bytes) (i : ℕ) : Outcome MessageHeaderRaw :=
  match bytes.drop i with
  | a :: b :: c :: d :: _ => .ok ⟨loadUInt16 a b, loadUInt16 c d⟩
  | _ => .error .outOfBounds

/-- The bytes of a raw header in memory. -/
def MessageHeaderRaw.store (raw : MessageHeaderRaw) : Bytes :=
  storeUInt16 raw.size ++ storeUInt16 raw.msgType

/-- `MessageHeader`. -/
structure MessageHeader where
  size : UInt16
  msgType : UInt16
deriving DecidableEq

/-- The constructor from a raw header. -/
def MessageHeader.ofRaw (raw : MessageHeaderRaw) : MessageHeader :=
  ⟨swapBytes16 raw.size, swapBytes16 raw.msgType⟩

/-- The conversion to a raw header. -/
def MessageHeader.toRaw (header : MessageHeader) : MessageHeaderRaw :=
  ⟨swapBytes16 header.size, swapBytes16 header.msgType⟩

/-- The header that lies in the buffer from index `i` on. -/
def MessageHeader.load (bytes : Bytes) (i : ℕ) : Outcome MessageHeader := do
  let raw ← MessageHeaderRaw.load bytes i
  return .ofRaw raw

/-- `MessageHeaderExtend::MessageHeaderRaw`. -/
structure MessageHeaderExtendRaw where
  ttl : UInt16
  replication : UInt8
  reserved : UInt8

/-- `sizeof(MessageHeaderExtend::MessageHeaderRaw)`. -/
def sizeofHeaderExtend : ℕ := 4

/-- The raw extended header that lies in the buffer from index `i` on. -/
def MessageHeaderExtendRaw.load (bytes : Bytes) (i : ℕ) : Outcome MessageHeaderExtendRaw :=
  match bytes.drop i with
  | a :: b :: c :: d :: _ => .ok ⟨loadUInt16 a b, c, d⟩
  | _ => .error .outOfBounds

/-- The bytes of a raw extended header in memory. -/
def MessageHeaderExtendRaw.store (raw : MessageHeaderExtendRaw) : Bytes :=
  storeUInt16 raw.ttl ++ [raw.replication, raw.reserved]

/-- `MessageHeaderExtend`. -/
structure MessageHeaderExtend where
  ttl : UInt16
  replication : UInt8
  reserved : UInt8
deriving DecidableEq

/-- The constructor from a raw extended header. -/
def MessageHeaderExtend.ofRaw (raw : MessageHeaderExtendRaw) : MessageHeaderExtend :=
  ⟨swapBytes16 raw.ttl, raw.replication, raw.reserved⟩

/-- The extended header that lies in the buffer from index `i` on. -/
def MessageHeaderExtend.load (bytes : Bytes) (i : ℕ) : Outcome MessageHeaderExtend := do
  let raw ← MessageHeaderExtendRaw.load bytes i
  return .ofRaw raw

/-- The conversion to a raw extended header. -/
def MessageHeaderExtend.toRaw (header : MessageHeaderExtend) : MessageHeaderExtendRaw :=
  ⟨swapBytes16 header.ttl, header.replication, header.reserved⟩

/-! ## Messages -/

/-- `MessageData`. -/
structure MessageData where
  bytes : Bytes
  header : MessageHeader
deriving DecidableEq

/-- The constructor of `MessageData`. -/
def MessageData.ofBytes (bytes : Bytes) : Outcome MessageData := do
  let header ← MessageHeader.load bytes 0
  return ⟨bytes, header⟩

/-- `Message_DHT_PUT`. -/
structure MessageDhtPut extends MessageData where
  headerExtend : MessageHeaderExtend
  key : Bytes
  value : Bytes
deriving DecidableEq

/-- The decoding constructor of `Message_DHT_PUT`. -/
def MessageDhtPut.ofBytes (bytes : Bytes) : Outcome MessageDhtPut := do
  let data ← MessageData.ofBytes bytes
  let headerExtend ← MessageHeaderExtend.load bytes sizeofHeader
  let key ← readRange bytes (sizeofHeader + sizeofHeaderExtend)
    (sizeofHeader + sizeofHeaderExtend + 32)
  let value ← readRange bytes (sizeofHeader + sizeofHeaderExtend + 32) data.header.size.toNat
  if data.header.size.toNat < sizeofHeader + sizeofHeaderExtend + 32 then
    throw (.thrown (.runtimeError "Key is too small!"))
  return { data with headerExtend := headerExtend, key := key, value := value }

/-- The encoding constructor of `Message_DHT_PUT`.  It leaves the members `key` and `value` empty. -/
def MessageDhtPut.build (key value : Bytes) (ttl : UInt16) (replication : UInt8) :
    MessageDhtPut :=
  let bytes : Bytes :=
    List.replicate (sizeofHeader + sizeofHeaderExtend + key.length + value.length) 0
  let header : MessageHeader := ⟨UInt16.ofNat bytes.length, dhtPut⟩
  let headerExtend : MessageHeaderExtend := ⟨ttl, replication, 0⟩
  let bytes := Slice.write bytes 0 header.toRaw.store
  let bytes := Slice.write bytes sizeofHeader headerExtend.toRaw.store
  let bytes := Slice.write bytes (sizeofHeader + sizeofHeaderExtend) key
  let bytes := Slice.write bytes (sizeofHeader + sizeofHeaderExtend + key.length) value
  { bytes := bytes, header := header, headerExtend := headerExtend, key := [], value := [] }

/-- `Message_DHT_PUT_KEY_IS_HASH_OF_DATA`. -/
structure MessageDhtPutKeyIsHashOfData extends MessageData where
  headerExtend : MessageHeaderExtend
  key : Bytes
  value : Bytes
deriving DecidableEq

/-- The decoding constructor of `Message_DHT_PUT_KEY_IS_HASH_OF_DATA`.  The key is the value. -/
def MessageDhtPutKeyIsHashOfData.ofBytes (bytes : Bytes) :
    Outcome MessageDhtPutKeyIsHashOfData := do
  let data ← MessageData.ofBytes bytes
  let headerExtend ← MessageHeaderExtend.load bytes sizeofHeader
  let value ← readRange bytes (sizeofHeader + sizeofHeaderExtend) data.header.size.toNat
  if data.header.size.toNat < sizeofHeader + sizeofHeaderExtend then
    throw (.thrown (.runtimeError "Message is too small!"))
  return { data with headerExtend := headerExtend, key := value, value := value }

/-- `Message_DHT_SUCCESS`. -/
structure MessageDhtSuccess extends MessageData where
  key : Bytes
  value : Bytes
deriving DecidableEq

/-- The decoding constructor of `Message_DHT_SUCCESS`.  It reads the key behind an extended header,
which this message does not have. -/
def MessageDhtSuccess.ofBytes (bytes : Bytes) : Outcome MessageDhtSuccess := do
  let data ← MessageData.ofBytes bytes
  let key ← readRange bytes (sizeofHeader + sizeofHeaderExtend)
    (sizeofHeader + sizeofHeaderExtend + 32)
  let value ← readRange bytes (sizeofHeader + sizeofHeaderExtend + 32) data.header.size.toNat
  if data.header.size.toNat < sizeofHeader + 32 then
    throw (.thrown (.runtimeError "Key is too small!"))
  return { data with key := key, value := value }

/-- The encoding constructor of `Message_DHT_SUCCESS`. -/
def MessageDhtSuccess.build (key value : Bytes) : MessageDhtSuccess :=
  let bytes : Bytes := List.replicate (sizeofHeader + key.length + value.length) 0
  let header : MessageHeader := ⟨UInt16.ofNat bytes.length, dhtSuccess⟩
  let bytes := Slice.write bytes 0 header.toRaw.store
  let bytes := Slice.write bytes sizeofHeader key
  let bytes := Slice.write bytes (sizeofHeader + key.length) value
  { bytes := bytes, header := header, key := [], value := [] }

/-- `Message_KEY`. -/
structure MessageKey extends MessageData where
  key : Bytes
deriving DecidableEq

/-- The decoding constructor of `Message_KEY`. -/
def MessageKey.ofBytes (bytes : Bytes) : Outcome MessageKey := do
  let data ← MessageData.ofBytes bytes
  let key ← readRange bytes sizeofHeader (sizeofHeader + 32)
  if data.header.size.toNat < sizeofHeader + 32 then
    throw (.thrown (.runtimeError "Key is too small!"))
  return { data with key := key }

/-- What the encoding constructors of `Message_KEY` and `Message_DHT_GET_KEY_IS_HASH_OF_DATA` do. -/
def MessageData.buildKey (msgType : UInt16) (key : Bytes) : MessageData :=
  let bytes : Bytes := List.replicate (sizeofHeader + key.length) 0
  let header : MessageHeader := ⟨UInt16.ofNat bytes.length, msgType⟩
  let bytes := Slice.write bytes 0 header.toRaw.store
  let bytes := Slice.write bytes sizeofHeader key
  ⟨bytes, header⟩

/-- The encoding constructor of `Message_KEY`. -/
def MessageKey.build (msgType : UInt16) (key : Bytes) : MessageKey :=
  { MessageData.buildKey msgType key with key := [] }

/-- `Message_DHT_GET_KEY_IS_HASH_OF_DATA`. -/
structure MessageDhtGetKeyIsHashOfData extends MessageData where
  key : Bytes
deriving DecidableEq

/-- The decoding constructor of `Message_DHT_GET_KEY_IS_HASH_OF_DATA`.  The key reaches to the end of
the buffer, whatever the size field says. -/
def MessageDhtGetKeyIsHashOfData.ofBytes (bytes : Bytes) :
    Outcome MessageDhtGetKeyIsHashOfData := do
  let data ← MessageData.ofBytes bytes
  let key ← readRange bytes sizeofHeader bytes.length
  if data.header.size.toNat < sizeofHeader then
    throw (.thrown (.runtimeError "Key is too small!"))
  return { data with key := key }

/-- The encoding constructor of `Message_DHT_GET_KEY_IS_HASH_OF_DATA`. -/
def MessageDhtGetKeyIsHashOfData.build (msgType : UInt16) (key : Bytes) :
    MessageDhtGetKeyIsHashOfData :=
  { MessageData.buildKey msgType key with key := [] }

/-! ## What the reads return -/

lemma readRange_of_le {bytes : Bytes} {first last : ℕ} (hfirst : first ≤ last)
    (hlast : last ≤ bytes.length) :
    readRange bytes first last = .ok ((bytes.drop first).take (last - first)) := by
  rw [readRange, Slice.read_eq_some_iff.mpr ⟨hfirst, hlast, rfl⟩]

lemma readRange_of_not {bytes : Bytes} {first last : ℕ}
    (h : ¬ (first ≤ last ∧ last ≤ bytes.length)) :
    readRange bytes first last = .error .outOfBounds := by
  rw [readRange, Slice.read_eq_none_iff.mpr h]

/-- A header needs four bytes. -/
lemma MessageHeader.length_of_load {bytes : Bytes} {i : ℕ} {header : MessageHeader}
    (h : MessageHeader.load bytes i = .ok header) : i + 4 ≤ bytes.length := by
  unfold MessageHeader.load MessageHeaderRaw.load at h
  rcases hdrop : bytes.drop i with _ | ⟨a, _ | ⟨b, _ | ⟨c, _ | ⟨d, rest⟩⟩⟩⟩
  all_goals rw [hdrop] at h
  all_goals try cases h
  have hlen := congrArg List.length hdrop
  simp only [List.length_drop, List.length_cons] at hlen
  omega

/-- A header does not depend on the bytes behind it. -/
lemma MessageHeader.load_append {bytes : Bytes} {header : MessageHeader}
    (h : MessageHeader.load bytes 0 = .ok header) (rest : Bytes) :
    MessageHeader.load (bytes ++ rest) 0 = .ok header := by
  unfold MessageHeader.load MessageHeaderRaw.load at h ⊢
  rcases bytes with _ | ⟨a, _ | ⟨b, _ | ⟨c, _ | ⟨d, tail⟩⟩⟩⟩
  all_goals first | exact h | cases h

/-- An extended header needs four bytes, and nothing else. -/
lemma MessageHeaderExtend.load_eq (bytes : Bytes) (i : ℕ) :
    (bytes.length < i + 4 ∧ MessageHeaderExtend.load bytes i = .error .outOfBounds) ∨
      (i + 4 ≤ bytes.length ∧ ∃ headerExtend,
        MessageHeaderExtend.load bytes i = .ok headerExtend) := by
  have hlen := List.length_drop (i := i) (l := bytes)
  unfold MessageHeaderExtend.load MessageHeaderExtendRaw.load
  generalize bytes.drop i = tail at hlen
  rcases tail with _ | ⟨a, _ | ⟨b, _ | ⟨c, _ | ⟨d, rest⟩⟩⟩⟩
  all_goals simp only [List.length_nil, List.length_cons] at hlen
  · exact Or.inl ⟨by omega, rfl⟩
  · exact Or.inl ⟨by omega, rfl⟩
  · exact Or.inl ⟨by omega, rfl⟩
  · exact Or.inl ⟨by omega, rfl⟩
  · exact Or.inr ⟨by omega, _, rfl⟩

/-! ## The layout of the encoded messages -/

/-- A length survives the cast to 16 bits exactly when it is small enough. -/
lemma toNat_ofNat_eq_iff {n : ℕ} : (UInt16.ofNat n).toNat = n ↔ n ≤ 65535 := by
  rw [UInt16.toNat_ofNat']
  omega

@[simp] lemma MessageHeaderRaw.length_store (raw : MessageHeaderRaw) : raw.store.length = 4 := rfl

@[simp] lemma MessageHeaderExtendRaw.length_store (raw : MessageHeaderExtendRaw) :
    raw.store.length = 4 := rfl

/-- A stored header is loaded back. -/
lemma MessageHeader.load_store (header : MessageHeader) (rest : Bytes) :
    MessageHeader.load (header.toRaw.store ++ rest) 0 = .ok header := by
  change Except.ok (MessageHeader.ofRaw ⟨loadUInt16 _ _, loadUInt16 _ _⟩) = _
  rw [loadUInt16_storeUInt16, loadUInt16_storeUInt16, MessageHeader.ofRaw, MessageHeader.toRaw,
    swapBytes16_swapBytes16, swapBytes16_swapBytes16]

/-- A stored extended header is loaded back. -/
lemma MessageHeaderExtend.load_store (headerExtend : MessageHeaderExtend) {first : Bytes} {i : ℕ}
    (hfirst : first.length = i) (rest : Bytes) :
    MessageHeaderExtend.load (first ++ (headerExtend.toRaw.store ++ rest)) i =
      .ok headerExtend := by
  rw [MessageHeaderExtend.load, MessageHeaderExtendRaw.load, List.drop_left' hfirst]
  change Except.ok (MessageHeaderExtend.ofRaw ⟨loadUInt16 _ _, _, _⟩) = _
  rw [loadUInt16_storeUInt16, MessageHeaderExtend.ofRaw, MessageHeaderExtend.toRaw,
    swapBytes16_swapBytes16]

/-- A loaded header is stored as the bytes it was loaded from. -/
lemma MessageHeader.store_of_load {bytes : Bytes} {header : MessageHeader}
    (h : MessageHeader.load bytes 0 = .ok header) : bytes = header.toRaw.store ++ bytes.drop 4 := by
  rcases bytes with _ | ⟨a, _ | ⟨b, _ | ⟨c, _ | ⟨d, rest⟩⟩⟩⟩
  all_goals try cases h
  change _ = storeUInt16 (swapBytes16 (swapBytes16 (loadUInt16 a b))) ++
    storeUInt16 (swapBytes16 (swapBytes16 (loadUInt16 c d))) ++ rest
  rw [swapBytes16_swapBytes16, swapBytes16_swapBytes16, storeUInt16_loadUInt16,
    storeUInt16_loadUInt16]
  rfl

/-- A loaded extended header is stored as the bytes it was loaded from. -/
lemma MessageHeaderExtend.store_of_load {bytes : Bytes} {i : ℕ} {headerExtend : MessageHeaderExtend}
    (h : MessageHeaderExtend.load bytes i = .ok headerExtend) :
    bytes.drop i = headerExtend.toRaw.store ++ bytes.drop (i + 4) := by
  rw [← List.drop_drop]
  unfold MessageHeaderExtend.load MessageHeaderExtendRaw.load at h
  rcases hdrop : bytes.drop i with _ | ⟨a, _ | ⟨b, _ | ⟨c, _ | ⟨d, rest⟩⟩⟩⟩
  all_goals rw [hdrop] at h
  all_goals try cases h
  change _ = storeUInt16 (swapBytes16 (swapBytes16 (loadUInt16 a b))) ++ [c, d] ++ rest
  rw [swapBytes16_swapBytes16, storeUInt16_loadUInt16]
  rfl

/-- A reply holds the header, the key and the value, one after the other. -/
lemma MessageDhtSuccess.bytes_build (key value : Bytes) :
    (MessageDhtSuccess.build key value).bytes =
      (MessageHeader.mk (UInt16.ofNat (4 + key.length + value.length)) dhtSuccess).toRaw.store ++
        (key ++ value) := by
  have hbytes : List.replicate (4 + key.length + value.length) (0 : UInt8) =
      List.replicate 4 0 ++ (List.replicate key.length 0 ++ List.replicate value.length 0) := by
    rw [Nat.add_assoc, List.replicate_add, List.replicate_add]
  simp only [MessageDhtSuccess.build, sizeofHeader, List.length_replicate]
  rw [hbytes, Slice.write_head (by simp), ← List.append_assoc,
    Slice.write_middle (by simp) (by simp), Slice.write_tail (by simp) (by simp), List.append_assoc]

/-- A key message holds the header and the key. -/
lemma MessageData.bytes_buildKey (msgType : UInt16) (key : Bytes) :
    (MessageData.buildKey msgType key).bytes =
      (MessageHeader.mk (UInt16.ofNat (4 + key.length)) msgType).toRaw.store ++ key := by
  simp only [MessageData.buildKey, sizeofHeader, List.length_replicate]
  rw [List.replicate_add, Slice.write_head (by simp), Slice.write_tail (by simp) (by simp)]

/-- A put message holds the two headers, the key and the value. -/
lemma MessageDhtPut.bytes_build (key value : Bytes) (ttl : UInt16) (replication : UInt8) :
    (MessageDhtPut.build key value ttl replication).bytes =
      (MessageHeader.mk (UInt16.ofNat (8 + key.length + value.length)) dhtPut).toRaw.store ++
        ((MessageHeaderExtend.mk ttl replication 0).toRaw.store ++ (key ++ value)) := by
  have hbytes : List.replicate (8 + key.length + value.length) (0 : UInt8) =
      List.replicate 4 0 ++ (List.replicate 4 0 ++
        (List.replicate key.length 0 ++ List.replicate value.length 0)) := by
    rw [← List.replicate_add, ← List.replicate_add, ← List.replicate_add]
    congr 1
    omega
  simp only [MessageDhtPut.build, sizeofHeader, sizeofHeaderExtend, List.length_replicate]
  rw [hbytes, Slice.write_head (by simp), ← List.append_assoc,
    Slice.write_middle (by simp) (by simp), ← List.append_assoc,
    Slice.write_middle (by simp) (by simp), Slice.write_tail (by simp; omega) (by simp)]
  simp only [List.append_assoc]

end Api

end ChordPlusPlus
