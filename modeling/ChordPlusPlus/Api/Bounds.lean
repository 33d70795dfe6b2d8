import ChordPlusPlus.Api.Request
import ChordPlusPlus.Dht.Handlers

/-!
# Bounds of requests and replies

Where the sizes of a message decide what the code does:

* the decoders read before they test the size, so a request that is too short for its type is read
  outside its buffer (`Request.ofBytes_inside_iff`);
* a put by the hash of the value carries a longer value than a reply has room for
  (`sizeFits_encodeReply_iff`);
* a get by the hash of the value has a key of any length, and the handler copies it into an array
  of 32 bytes (`key_fillsId_iff`).
-/

namespace ChordPlusPlus

namespace Api

/-- `part` is a range of the buffer. -/
def IsRange (bytes part : Bytes) : Prop :=
  ∃ first last, Slice.read bytes first last = some part

/-- Everything that was decoded lies inside the buffer. -/
def DecodedData.TakenFrom (bytes : Bytes) : DecodedData → Prop
  | .put message => MessageHeader.load bytes 0 = .ok message.header ∧
      MessageHeaderExtend.load bytes sizeofHeader = .ok message.headerExtend ∧
      IsRange bytes message.key ∧ IsRange bytes message.value
  | .key message => MessageHeader.load bytes 0 = .ok message.header ∧ IsRange bytes message.key
  | .putKeyIsHashOfData message => MessageHeader.load bytes 0 = .ok message.header ∧
      MessageHeaderExtend.load bytes sizeofHeader = .ok message.headerExtend ∧
      IsRange bytes message.key ∧ IsRange bytes message.value
  | .getKeyIsHashOfData message =>
      MessageHeader.load bytes 0 = .ok message.header ∧ IsRange bytes message.key

/-- The constructor throws, or it returns a message that it read inside the buffer. -/
def Request.Inside (header : MessageHeader) (bytes : Bytes) : Prop :=
  (∃ e, Request.ofBytes header bytes = .error (.thrown e)) ∨
    ∃ request, Request.ofBytes header bytes = .ok request ∧ request.decodedData.TakenFrom bytes

/-- What lies between two places inside the buffer is a range of it. -/
lemma isRange_of_le {bytes : Bytes} (first last : ℕ) (hfirst : first ≤ last)
    (hlast : last ≤ bytes.length) : IsRange bytes ((bytes.drop first).take (last - first)) :=
  ⟨first, last, Slice.read_eq_some_iff.mpr ⟨hfirst, hlast, rfl⟩⟩

section Inside

variable {bytes : Bytes} {header : MessageHeader}

/-- A constructor that reads outside the buffer does not stay inside it. -/
lemma Request.not_inside_of_outOfBounds
    (h : Request.ofBytes header bytes = .error .outOfBounds) : ¬ Request.Inside header bytes := by
  rintro (⟨e, hthrown⟩ | ⟨request, hok, -⟩)
  · rw [h] at hthrown
    cases hthrown
  · rw [h] at hok
    cases hok

/-- A put message needs its second header and its key. -/
lemma Request.inside_dhtPut_iff (hload : MessageHeader.load bytes 0 = .ok header)
    (hlength : header.size.toNat ≤ bytes.length) (htype : header.msgType = dhtPut) :
    Request.Inside header bytes ↔ 40 ≤ header.size.toNat := by
  have hbytes := Request.ofBytes_dhtPut hlength htype
  by_cases hsize : 40 ≤ header.size.toNat
  · obtain ⟨headerExtend, hext, hmessage⟩ := MessageDhtPut.ofBytes_of_le hload hsize hlength
    rw [hmessage] at hbytes
    refine iff_of_true (Or.inr ⟨_, hbytes, hload, hext, ?_, ?_⟩) hsize
    · exact isRange_of_le 8 40 (by omega) (by omega)
    · exact isRange_of_le _ _ hsize hlength
  · rw [MessageDhtPut.ofBytes_of_lt hload (by omega)] at hbytes
    exact iff_of_false (Request.not_inside_of_outOfBounds hbytes) hsize

/-- A get message needs its key. -/
lemma Request.inside_dhtGet_iff (hload : MessageHeader.load bytes 0 = .ok header)
    (hlength : header.size.toNat ≤ bytes.length) (htype : header.msgType = dhtGet) :
    Request.Inside header bytes ↔ 36 ≤ bytes.length := by
  have hbytes := Request.ofBytes_dhtGet hlength htype
  by_cases hkey : 36 ≤ bytes.length
  · rw [MessageKey.ofBytes_of_length_le hload hkey] at hbytes
    refine iff_of_true ?_ hkey
    split_ifs at hbytes with hsize
    · exact Or.inl ⟨_, hbytes⟩
    · exact Or.inr ⟨_, hbytes, hload, isRange_of_le 4 36 (by omega) hkey⟩
  · rw [MessageKey.ofBytes_of_length_lt hload (by omega)] at hbytes
    exact iff_of_false (Request.not_inside_of_outOfBounds hbytes) hkey

/-- A put message by the hash of its value needs its second header. -/
lemma Request.inside_dhtPutKeyIsHashOfData_iff (hload : MessageHeader.load bytes 0 = .ok header)
    (hlength : header.size.toNat ≤ bytes.length)
    (htype : header.msgType = dhtPutKeyIsHashOfData) :
    Request.Inside header bytes ↔ 8 ≤ header.size.toNat := by
  have hbytes := Request.ofBytes_dhtPutKeyIsHashOfData hlength htype
  by_cases hsize : 8 ≤ header.size.toNat
  · obtain ⟨headerExtend, hext, hmessage⟩ :=
      MessageDhtPutKeyIsHashOfData.ofBytes_of_le hload hsize hlength
    rw [hmessage] at hbytes
    have hrange := isRange_of_le _ _ hsize hlength
    exact iff_of_true (Or.inr ⟨_, hbytes, hload, hext, hrange, hrange⟩) hsize
  · rw [MessageDhtPutKeyIsHashOfData.ofBytes_of_lt hload (by omega)] at hbytes
    exact iff_of_false (Request.not_inside_of_outOfBounds hbytes) hsize

/-- A get message by the hash of the value takes what is there. -/
lemma Request.inside_dhtGetKeyIsHashOfData (hload : MessageHeader.load bytes 0 = .ok header)
    (hlength : header.size.toNat ≤ bytes.length)
    (htype : header.msgType = dhtGetKeyIsHashOfData) : Request.Inside header bytes := by
  have hbytes := Request.ofBytes_dhtGetKeyIsHashOfData hlength htype
  have hheader := MessageHeader.length_of_load hload
  rw [MessageDhtGetKeyIsHashOfData.ofBytes_eq hload] at hbytes
  split_ifs at hbytes with hsize
  · exact Or.inl ⟨_, hbytes⟩
  · refine Or.inr ⟨_, hbytes, hload, 4, bytes.length, ?_⟩
    rw [Slice.read_eq_some_iff]
    exact ⟨by omega, le_rfl, List.take_of_length_le (by simp)⟩

end Inside

/-- The `Request` constructor stays inside the buffer exactly when the buffer is shorter than the
size field says, which is tested first, or the fixed part of the message fits: for the put messages
into the size field, and for a get message into the buffer. -/
theorem Request.ofBytes_inside_iff {bytes : Bytes} {header : MessageHeader}
    (hload : MessageHeader.load bytes 0 = .ok header) :
    Request.Inside header bytes ↔
      bytes.length < header.size.toNat ∨
        ((header.msgType = dhtPut → 40 ≤ header.size.toNat) ∧
          (header.msgType = dhtGet → 36 ≤ bytes.length) ∧
          (header.msgType = dhtPutKeyIsHashOfData → 8 ≤ header.size.toNat)) := by
  by_cases hlength : bytes.length < header.size.toNat
  · exact iff_of_true (Or.inl ⟨_, Request.ofBytes_of_lt hlength⟩) (Or.inl hlength)
  rw [or_iff_right hlength]
  have hle := Nat.not_lt.mp hlength
  -- The types are pairwise different, so at most one of the three conditions is at stake.
  by_cases hput : header.msgType = dhtPut
  · rw [Request.inside_dhtPut_iff hload hle hput, hput]
    simp [dhtPut, dhtGet, dhtPutKeyIsHashOfData]
  by_cases hget : header.msgType = dhtGet
  · rw [Request.inside_dhtGet_iff hload hle hget, hget]
    simp [dhtPut, dhtGet, dhtPutKeyIsHashOfData]
  by_cases hputHash : header.msgType = dhtPutKeyIsHashOfData
  · rw [Request.inside_dhtPutKeyIsHashOfData_iff hload hle hputHash, hputHash]
    simp [dhtPut, dhtGet, dhtPutKeyIsHashOfData]
  refine iff_of_true ?_ ⟨fun h => absurd h hput, fun h => absurd h hget, fun h => absurd h hputHash⟩
  by_cases hgetHash : header.msgType = dhtGetKeyIsHashOfData
  · exact Request.inside_dhtGetKeyIsHashOfData hload hle hgetHash
  · exact Or.inl (Request.ofBytes_of_ne hle hput hget hputHash hgetHash)

/-- A put frame that consists of the two headers. -/
def shortPutFrame : Bytes := [0, 8, 2, 138, 0, 0, 0, 0]

/-- The key of a put frame without one is read behind the end of the buffer. -/
theorem shortPutFrame_not_inside :
    MessageHeader.load shortPutFrame 0 = .ok ⟨8, dhtPut⟩ ∧
      Request.ofBytes ⟨8, dhtPut⟩ shortPutFrame = .error .outOfBounds ∧
      ¬ Request.Inside ⟨8, dhtPut⟩ shortPutFrame := by
  have hload : MessageHeader.load shortPutFrame 0 = .ok ⟨8, dhtPut⟩ := by decide
  have hbytes : Request.ofBytes ⟨8, dhtPut⟩ shortPutFrame = .error .outOfBounds := by decide
  exact ⟨hload, hbytes, Request.not_inside_of_outOfBounds hbytes⟩

/-- Two headers alone are no put message, but a put message by the hash of its (empty) value. -/
theorem twoHeaders_inside_iff :
    ¬ Request.Inside ⟨8, dhtPut⟩ shortPutFrame ∧
      Request.Inside ⟨8, dhtPutKeyIsHashOfData⟩ [0, 8, 2, 142, 0, 0, 0, 0] :=
  ⟨mt (Request.ofBytes_inside_iff (by decide)).mp (by decide),
    (Request.ofBytes_inside_iff (by decide)).mpr (by decide)⟩

/-! ## The length field of a reply -/

/-- The message that a get handler returns to the connection. -/
def encodeReply : Reply → MessageData
  | .dhtSuccess key value => (MessageDhtSuccess.build key value).toMessageData
  | .dhtFailure key => (MessageKey.build dhtFailure key).toMessageData

/-- The size field in the first bytes of a message is the length of the message. -/
def SizeFits (bytes : Bytes) : Prop :=
  ∃ header, MessageHeader.load bytes 0 = .ok header ∧ header.size.toNat = bytes.length

/-- The value that a request asks to store. -/
def DecodedData.storedValue : DecodedData → Option Bytes
  | .put message => some message.value
  | .putKeyIsHashOfData message => some message.value
  | .key _ => none
  | .getKeyIsHashOfData _ => none

/-- The size field of a reply is right for values of at most 65499 bytes. -/
lemma sizeFits_dhtSuccess_iff (key : IdType) (value : Bytes) :
    SizeFits (encodeReply (.dhtSuccess key.bytes value)).bytes ↔ value.length ≤ 65499 := by
  have hbytes := MessageDhtSuccess.bytes_build key.bytes value
  have hlength : (MessageDhtSuccess.build key.bytes value).bytes.length =
      4 + key.bytes.length + value.length := by
    rw [hbytes, List.length_append, MessageHeaderRaw.length_store, List.length_append]
    omega
  have hkey : key.bytes.length = 32 := key.size_eq
  have hload := MessageHeader.load_store
    ⟨UInt16.ofNat (4 + key.bytes.length + value.length), dhtSuccess⟩ (key.bytes ++ value)
  rw [← hbytes] at hload
  have hfits : SizeFits (encodeReply (.dhtSuccess key.bytes value)).bytes ↔
      (UInt16.ofNat (4 + key.bytes.length + value.length)).toNat =
        4 + key.bytes.length + value.length := by
    constructor
    · rintro ⟨header, hheader, hsize⟩
      have heq := Except.ok.inj (hheader.symm.trans hload)
      rw [heq] at hsize
      exact hsize.trans hlength
    · intro hsize
      exact ⟨_, hload, hsize.trans hlength.symm⟩
  rw [hfits, toNat_ofNat_eq_iff]
  omega

/-- An accepted put request leaves room for its value in the size field. -/
lemma length_storedValue {bytes value : Bytes} {header : MessageHeader} {request : Request}
    (hload : MessageHeader.load bytes 0 = .ok header)
    (hok : Request.ofBytes header bytes = .ok request)
    (hvalue : request.decodedData.storedValue = some value) :
    (header.msgType = dhtPut ∧ value.length + 40 = header.size.toNat) ∨
      (header.msgType = dhtPutKeyIsHashOfData ∧ value.length + 8 = header.size.toNat) := by
  obtain ⟨hlength, ⟨htype, hsize, headerExtend, -, rfl⟩ | ⟨-, -, rfl⟩ |
    ⟨htype, hsize, headerExtend, -, rfl⟩ | ⟨-, -, rfl⟩⟩ := Request.cases_of_ofBytes_eq_ok hload hok
  · obtain rfl := Option.some.inj hvalue
    refine Or.inl ⟨htype, ?_⟩
    rw [List.length_take, List.length_drop]
    omega
  · cases hvalue
  · obtain rfl := Option.some.inj hvalue
    refine Or.inr ⟨htype, ?_⟩
    rw [List.length_take, List.length_drop]
    omega
  · cases hvalue

/-- A stored item is read back. -/
lemma getData_setData {N : Type*} (info : NodeInformation N) (now : TimePoint) (key value : Bytes)
    (ttl : Duration) : (info.setData now key value ttl).getData key = some value := by
  rw [NodeInformation.getData, NodeInformation.setData, NodeInformation.setDataExpires,
    AList.lookup_insert, Option.map_some]

/-- The reply to a get that finds the value of an accepted put frame: its size field is right exactly
when the frame was a `DHT_PUT` or its size field is at most 65507. -/
theorem sizeFits_encodeReply_iff {N : Type*} {bytes value : Bytes} {header : MessageHeader}
    {request : Request} (hload : MessageHeader.load bytes 0 = .ok header)
    (hok : Request.ofBytes header bytes = .ok request)
    (hvalue : request.decodedData.storedValue = some value)
    (info : NodeInformation N) (now : TimePoint) (key : IdType) (ttl : Duration) :
    SizeFits (encodeReply (.ofResponse key.bytes
        ((info.setData now key.bytes value ttl).getData key.bytes))).bytes ↔
      header.msgType = dhtPut ∨ header.size.toNat ≤ 65507 := by
  have hbound := header.size.toNat_lt
  rw [getData_setData, Reply.ofResponse, sizeFits_dhtSuccess_iff]
  rcases length_storedValue hload hok hvalue with ⟨htype, hlength⟩ | ⟨htype, hlength⟩
  · exact iff_of_true (by omega) (Or.inl htype)
  · have hne : header.msgType ≠ dhtPut := by
      rw [htype]
      decide
    rw [or_iff_right hne]
    omega

/-- The longest put frame by the hash of its value. -/
def longestHashedFrame : Bytes := [255, 255, 2, 142] ++ List.replicate 65531 0

/-- The reply that returns its value has the wrong size field. -/
theorem longestHashedFrame_not_sizeFits :
    ∃ request value,
      MessageHeader.load longestHashedFrame 0 = .ok ⟨65535, dhtPutKeyIsHashOfData⟩ ∧
        Request.ofBytes ⟨65535, dhtPutKeyIsHashOfData⟩ longestHashedFrame = .ok request ∧
        request.decodedData.storedValue = some value ∧
        ∀ key : IdType, ¬ SizeFits (encodeReply (.ofResponse key.bytes
          ((NodeInformation.setData (NodeInformation.initial : NodeInformation IdType) 0 key.bytes
            value 60).getData key.bytes))).bytes := by
  have hload : MessageHeader.load longestHashedFrame 0 =
      .ok ⟨65535, dhtPutKeyIsHashOfData⟩ := rfl
  have hlength : (65535 : UInt16).toNat ≤ longestHashedFrame.length := by
    rw [longestHashedFrame, List.length_append, List.length_replicate]
    decide
  obtain ⟨headerExtend, -, hmessage⟩ :=
    MessageDhtPutKeyIsHashOfData.ofBytes_of_le hload (by decide) hlength
  have hok := @Request.ofBytes_dhtPutKeyIsHashOfData longestHashedFrame ⟨65535, _⟩ hlength rfl
  rw [hmessage] at hok
  refine ⟨_, _, hload, hok, rfl, ?_⟩
  intro key
  rw [getData_setData, Reply.ofResponse, sizeFits_dhtSuccess_iff]
  rcases length_storedValue hload hok rfl with ⟨htype, -⟩ | ⟨-, hvalue⟩
  · exact absurd htype (by decide)
  · change _ = 65535 at hvalue
    omega

/-- A value of one byte fits. -/
theorem sizeFits_encodeReply_byte :
    SizeFits (encodeReply (.ofResponse (idOf 1).bytes
        ((NodeInformation.setData (NodeInformation.initial : NodeInformation IdType) 0 (idOf 1).bytes
          [7] 60).getData (idOf 1).bytes))).bytes ↔
      dhtPutKeyIsHashOfData = dhtPut ∨ (9 : UInt16).toNat ≤ 65507 :=
  @sizeFits_encodeReply_iff IdType [0, 9, 2, 142, 0, 0, 0, 0, 7] [7] ⟨9, dhtPutKeyIsHashOfData⟩
    ⟨[0, 9, 2, 142, 0, 0, 0, 0, 7], .putKeyIsHashOfData
      ⟨⟨[0, 9, 2, 142, 0, 0, 0, 0, 7], ⟨9, dhtPutKeyIsHashOfData⟩⟩, ⟨0, 0, 0⟩, [7], [7]⟩⟩
    (by decide) (by decide) (by decide) _ _ _ _

/-! ## The key of a get by the hash of the value -/

/-- The copy of the key into the array `finalHashedKey` in `Dht::onDhtGetKeyIsHashOfData`.  A byte of
the array that is not written stays without a value. -/
def copyIntoId (key : Bytes) : Outcome (List (Option UInt8)) :=
  if key.length ≤ 32 then .ok (key.map some ++ List.replicate (32 - key.length) none)
  else .error .outOfBounds

/-- The copy stays inside the array and sets every byte of it. -/
def FillsId (key : Bytes) : Prop :=
  ∃ id, copyIntoId key = .ok id ∧ ∀ byte ∈ id, byte ≠ none

/-- Keys of 32 bytes fill the array, and no others. -/
lemma fillsId_iff {key : Bytes} : FillsId key ↔ key.length = 32 := by
  constructor
  · rintro ⟨id, hcopy, hset⟩
    rw [copyIntoId] at hcopy
    split_ifs at hcopy with hle
    obtain rfl := Except.ok.inj hcopy
    by_contra hne
    refine hset none ?_ rfl
    rw [List.mem_append, List.mem_replicate]
    exact Or.inr ⟨by omega, rfl⟩
  · intro hlength
    refine ⟨key.map some, ?_, by simp⟩
    rw [copyIntoId, if_pos hlength.le, hlength]
    simp

/-- The key of a get request by the hash of the value is all that the connection read behind the
header. -/
lemma length_key_of_finishRead {head : ByteArr sizeofHeader} {stream : Bytes}
    {header : MessageHeader} {request : Request} {message : MessageDhtGetKeyIsHashOfData}
    (hload : MessageHeader.load head.bytes 0 = .ok header)
    (hread : Connection.finishRead head stream = .ok (some request))
    (hdata : request.decodedData = .getKeyIsHashOfData message) :
    message.key.length + 4 = header.size.toNat := by
  obtain ⟨-, hstream, hok⟩ := Connection.ofBytes_of_finishRead hload hread
  have hhead : head.bytes.length = 4 := head.size_eq
  have hbound := header.size.toNat_lt
  obtain ⟨-, ⟨-, -, headerExtend, -, rfl⟩ | ⟨-, -, rfl⟩ | ⟨-, -, headerExtend, -, rfl⟩ |
    ⟨-, hsize, rfl⟩⟩ := Request.cases_of_ofBytes_eq_ok (MessageHeader.load_append hload _) hok
  · cases hdata
  · cases hdata
  · cases hdata
  · have hbody : Connection.bodyLength header = header.size.toNat - 4 := by
      rw [Connection.bodyLength, Connection.dataCapacity, sizeofHeader]
      omega
    obtain rfl : ⟨_, _⟩ = message := DecodedData.getKeyIsHashOfData.inj hdata
    change List.length (List.drop 4 _) + 4 = _
    rw [List.drop_left' hhead, List.length_take]
    omega

/-- A get request by the hash of the value that the connection delivers has a key of 32 bytes, which
the handler copies into the whole id, exactly when its size field is 36. -/
theorem key_fillsId_iff {head : ByteArr sizeofHeader} {stream : Bytes} {header : MessageHeader}
    {request : Request} {message : MessageDhtGetKeyIsHashOfData}
    (hload : MessageHeader.load head.bytes 0 = .ok header)
    (hread : Connection.finishRead head stream = .ok (some request))
    (hdata : request.decodedData = .getKeyIsHashOfData message) :
    (message.key.length = 32 ∧ FillsId message.key) ↔ header.size.toNat = 36 := by
  have hlength := length_key_of_finishRead hload hread hdata
  rw [fillsId_iff, and_self]
  omega

/-- The request with the given header bytes and a key of zeros, as decoded. -/
def hashedGet (head : Bytes) (size : UInt16) (n : ℕ) : Request :=
  ⟨head ++ List.replicate n 0, .getKeyIsHashOfData
    ⟨⟨head ++ List.replicate n 0, ⟨size, dhtGetKeyIsHashOfData⟩⟩, List.replicate n 0⟩⟩

/-- A key of 33 bytes is copied over the end of the array. -/
theorem key_of_33_bytes_not_fillsId :
    Connection.finishRead ⟨[0, 37, 2, 143], rfl⟩ (List.replicate 33 0) =
        .ok (some (hashedGet [0, 37, 2, 143] 37 33)) ∧
      copyIntoId (List.replicate 33 0) = .error .outOfBounds ∧
      ¬ FillsId (List.replicate 33 0) := by
  refine ⟨by decide, by decide, ?_⟩
  rw [fillsId_iff]
  decide

/-- A key of 32 bytes fills the array. -/
theorem key_of_32_bytes_fillsId_iff :
    ((List.replicate 32 (0 : UInt8)).length = 32 ∧ FillsId (List.replicate 32 0)) ↔
      (36 : UInt16).toNat = 36 :=
  @key_fillsId_iff ⟨[0, 36, 2, 143], rfl⟩ (List.replicate 32 0) ⟨36, dhtGetKeyIsHashOfData⟩
    (hashedGet [0, 36, 2, 143] 36 32) _
    (by decide) (by decide) rfl

end Api

end ChordPlusPlus
