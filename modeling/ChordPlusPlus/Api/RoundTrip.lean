import ChordPlusPlus.Api.Request

/-!
# Decoding what was encoded

`request_roundTrip`: the requests that the encoding constructors build are decoded to the fields they
were built from, and an accepted put frame is encoded back to the same bytes.

`not_success_roundTrip`: no reply is decoded to its key and value.
-/

namespace ChordPlusPlus

namespace Api

section Put

variable (key : ByteArr 32) (value : Bytes) (ttl : UInt16) (replication : UInt8)

/-- The request that the frame of a put message decodes to. -/
def putRequest : Request :=
  let bytes := (MessageDhtPut.build key.bytes value ttl replication).bytes
  ⟨bytes, .put ⟨⟨bytes, ⟨UInt16.ofNat bytes.length, dhtPut⟩⟩, ⟨ttl, replication, 0⟩, key.bytes,
    value⟩⟩

lemma length_putBytes :
    (MessageDhtPut.build key.bytes value ttl replication).bytes.length = 40 + value.length := by
  have hkey : key.bytes.length = 32 := key.size_eq
  rw [MessageDhtPut.bytes_build]
  simp only [List.length_append, MessageHeaderRaw.length_store,
    MessageHeaderExtendRaw.length_store]
  omega

lemma parse_putBytes (hvalue : 40 + value.length ≤ 65535) :
    Request.parse (MessageDhtPut.build key.bytes value ttl replication).bytes =
      .ok (putRequest key value ttl replication) := by
  have hkey : key.bytes.length = 32 := key.size_eq
  have hlength := length_putBytes key value ttl replication
  have hbytes := MessageDhtPut.bytes_build key.bytes value ttl replication
  have htotal : 8 + key.bytes.length + value.length = 40 + value.length := by omega
  rw [htotal] at hbytes
  unfold putRequest
  generalize (MessageDhtPut.build key.bytes value ttl replication).bytes = bytes at hbytes hlength ⊢
  have hload : MessageHeader.load bytes 0 = .ok ⟨UInt16.ofNat bytes.length, dhtPut⟩ := by
    rw [hbytes, MessageHeader.load_store, ← hbytes, hlength]
  have hext : MessageHeaderExtend.load bytes 4 = .ok ⟨ttl, replication, 0⟩ := by
    rw [hbytes, MessageHeaderExtend.load_store _ (MessageHeaderRaw.length_store _)]
  have hdrop : bytes.drop 8 = key.bytes ++ value := by
    rw [hbytes, ← List.append_assoc]
    exact List.drop_left' rfl
  have hsize : (UInt16.ofNat bytes.length).toNat = bytes.length :=
    toNat_ofNat_eq_iff.mpr (by omega)
  obtain ⟨headerExtend, hext', hmessage⟩ := MessageDhtPut.ofBytes_of_le hload
    (by rw [hsize]; omega) hsize.le
  obtain rfl := Except.ok.inj (hext'.symm.trans hext)
  rw [Request.parse, hload]
  change Request.ofBytes _ bytes = _
  rw [Request.ofBytes_dhtPut hsize.le rfl, hmessage]
  have hvalue' : (bytes.drop 40).take (bytes.length - 40) = value := by
    have hdrop' : bytes.drop 40 = value := by
      rw [← List.drop_drop (i := 32) (j := 8), hdrop, List.drop_left' hkey]
    rw [hdrop', List.take_of_length_le (by omega)]
  rw [hsize, hdrop, List.take_left' hkey, hvalue']
  rfl

end Put

/-- The frames of the key messages of either kind: their length, their header and their key. -/
lemma load_buildKey (msgType : UInt16) {key bytes : Bytes} (hkey : 4 + key.length ≤ 65535)
    (hbytes : (MessageData.buildKey msgType key).bytes = bytes) :
    bytes.length = 4 + key.length ∧
      MessageHeader.load bytes 0 = .ok ⟨UInt16.ofNat bytes.length, msgType⟩ ∧
      (UInt16.ofNat bytes.length).toNat = bytes.length ∧ bytes.drop 4 = key := by
  subst hbytes
  have hlength : (MessageData.buildKey msgType key).bytes.length = 4 + key.length := by
    simp [MessageData.bytes_buildKey]
  rw [hlength, MessageData.bytes_buildKey]
  refine ⟨rfl, MessageHeader.load_store _ _, toNat_ofNat_eq_iff.mpr hkey, ?_⟩
  exact List.drop_left' rfl

/-- The request that the frame of a get message decodes to. -/
def getRequest (key : ByteArr 32) : Request :=
  let bytes := (MessageKey.build dhtGet key.bytes).bytes
  ⟨bytes, .key ⟨⟨bytes, ⟨UInt16.ofNat bytes.length, dhtGet⟩⟩, key.bytes⟩⟩

lemma parse_getBytes (key : ByteArr 32) :
    Request.parse (MessageKey.build dhtGet key.bytes).bytes = .ok (getRequest key) := by
  have hkey : key.bytes.length = 32 := key.size_eq
  unfold getRequest
  generalize hbytes : (MessageKey.build dhtGet key.bytes).bytes = bytes
  obtain ⟨hlength, hload, hsize, hdrop⟩ := load_buildKey dhtGet (by omega) hbytes
  rw [Request.parse, hload]
  change Request.ofBytes _ bytes = _
  rw [Request.ofBytes_dhtGet hsize.le rfl, MessageKey.ofBytes_of_length_le hload (by omega),
    if_neg (by rw [hsize]; omega), hdrop, List.take_of_length_le hkey.le]
  rfl

/-- The request that the frame of a get message by the hash of the value decodes to. -/
def getKeyIsHashOfDataRequest (key : Bytes) : Request :=
  let bytes := (MessageDhtGetKeyIsHashOfData.build dhtGetKeyIsHashOfData key).bytes
  ⟨bytes, .getKeyIsHashOfData
    ⟨⟨bytes, ⟨UInt16.ofNat bytes.length, dhtGetKeyIsHashOfData⟩⟩, key⟩⟩

lemma parse_getKeyIsHashOfDataBytes {key : Bytes} (hkey : key.length ≤ 65531) :
    Request.parse (MessageDhtGetKeyIsHashOfData.build dhtGetKeyIsHashOfData key).bytes =
      .ok (getKeyIsHashOfDataRequest key) := by
  unfold getKeyIsHashOfDataRequest
  generalize hbytes : (MessageDhtGetKeyIsHashOfData.build dhtGetKeyIsHashOfData key).bytes = bytes
  obtain ⟨hlength, hload, hsize, hdrop⟩ := load_buildKey dhtGetKeyIsHashOfData (by omega) hbytes
  rw [Request.parse, hload]
  change Request.ofBytes _ bytes = _
  rw [Request.ofBytes_dhtGetKeyIsHashOfData hsize.le rfl,
    MessageDhtGetKeyIsHashOfData.ofBytes_eq hload, if_neg (by rw [hsize]; omega), hdrop]
  rfl

/-- Encoding the decoded fields of a put frame gives the frame back. -/
lemma build_of_parse {bytes : Bytes} {request : Request} {message : MessageDhtPut}
    (hok : Request.parse bytes = .ok request) (hdata : request.decodedData = .put message)
    (hsize : message.header.size.toNat = bytes.length) (hreserved : message.headerExtend.reserved = 0) :
    (MessageDhtPut.build message.key message.value message.headerExtend.ttl
      message.headerExtend.replication).bytes = bytes := by
  cases hload : MessageHeader.load bytes 0 with
  | error fault =>
    rw [Request.parse, hload] at hok
    cases hok
  | ok header =>
    rw [Request.parse, hload] at hok
    obtain ⟨-, ⟨htype, hle, headerExtend, hext, rfl⟩ | ⟨-, -, rfl⟩ |
      ⟨-, -, headerExtend, -, rfl⟩ | ⟨-, -, rfl⟩⟩ := Request.cases_of_ofBytes_eq_ok hload hok
    · cases hdata
      change header.size.toNat = bytes.length at hsize
      change headerExtend.reserved = 0 at hreserved
      have hkey : ((bytes.drop 8).take 32).length = 32 := by
        rw [List.length_take, List.length_drop]
        omega
      have hvalue : (bytes.drop 40).take (header.size.toNat - 40) = bytes.drop 40 :=
        List.take_of_length_le (by rw [List.length_drop, hsize])
      have htotal : 8 + 32 + (bytes.drop 40).length = header.size.toNat := by
        rw [List.length_drop]
        omega
      have hfields : (bytes.drop 8).take 32 ++ bytes.drop 40 = bytes.drop 8 := by
        have hdrop : bytes.drop 40 = (bytes.drop 8).drop 32 := by rw [List.drop_drop]
        rw [hdrop, List.take_append_drop]
      have hheader : (⟨UInt16.ofNat header.size.toNat, dhtPut⟩ : MessageHeader) = header := by
        rw [UInt16.ofNat_toNat, ← htype]
      have hheaderExtend : (⟨headerExtend.ttl, headerExtend.replication, 0⟩ :
          MessageHeaderExtend) = headerExtend := by
        rw [← hreserved]
      change (MessageDhtPut.build ((bytes.drop 8).take 32)
        ((bytes.drop 40).take (header.size.toNat - 40)) headerExtend.ttl
          headerExtend.replication).bytes = bytes
      rw [MessageDhtPut.bytes_build, hkey, hvalue, htotal, hfields, hheader, hheaderExtend,
        ← MessageHeaderExtend.store_of_load hext, ← MessageHeader.store_of_load hload]
    · cases hdata
    · cases hdata
    · cases hdata

/-- Decoding undoes encoding for the requests, and encoding undoes decoding for the put frames whose
size field is their length and whose reserved byte is zero. -/
theorem request_roundTrip :
    (∀ (key : ByteArr 32) (value : Bytes) (ttl : UInt16) (replication : UInt8),
      40 + value.length ≤ 65535 →
        let bytes := (MessageDhtPut.build key.bytes value ttl replication).bytes
        ∃ message, Request.parse bytes = .ok ⟨bytes, .put message⟩ ∧ message.key = key.bytes ∧
          message.value = value ∧ message.headerExtend = ⟨ttl, replication, 0⟩ ∧
          message.header.size.toNat = bytes.length) ∧
      (∀ key : ByteArr 32,
        let bytes := (MessageKey.build dhtGet key.bytes).bytes
        ∃ message, Request.parse bytes = .ok ⟨bytes, .key message⟩ ∧ message.key = key.bytes ∧
          message.header.size.toNat = bytes.length) ∧
      (∀ key : Bytes, key.length ≤ 65531 →
        let bytes := (MessageDhtGetKeyIsHashOfData.build dhtGetKeyIsHashOfData key).bytes
        ∃ message, Request.parse bytes = .ok ⟨bytes, .getKeyIsHashOfData message⟩ ∧
          message.key = key ∧ message.header.size.toNat = bytes.length) ∧
      ∀ (bytes : Bytes) (request : Request) (message : MessageDhtPut),
        Request.parse bytes = .ok request → request.decodedData = .put message →
        message.header.size.toNat = bytes.length → message.headerExtend.reserved = 0 →
        (MessageDhtPut.build message.key message.value message.headerExtend.ttl
          message.headerExtend.replication).bytes = bytes := by
  refine ⟨?_, ?_, ?_, fun _ _ _ => build_of_parse⟩
  · intro key value ttl replication hvalue
    refine ⟨_, parse_putBytes key value ttl replication hvalue, rfl, rfl, rfl, ?_⟩
    exact toNat_ofNat_eq_iff.mpr ((length_putBytes key value ttl replication).trans_le hvalue)
  · intro key
    have hkey : key.bytes.length = 32 := key.size_eq
    obtain ⟨-, -, hsize, -⟩ := @load_buildKey dhtGet key.bytes _ (by omega) rfl
    exact ⟨_, parse_getBytes key, rfl, hsize⟩
  · intro key hkey
    obtain ⟨-, -, hsize, -⟩ := @load_buildKey dhtGetKeyIsHashOfData key _ (by omega) rfl
    exact ⟨_, parse_getKeyIsHashOfDataBytes hkey, rfl, hsize⟩

/-- A put frame for the key `5` and the value `7`. -/
def sevenFrame : Bytes := (MessageDhtPut.build (idOf 5).bytes [7] 60 2).bytes

theorem request_roundTrip_seven :
    (∃ message, Request.parse sevenFrame = .ok ⟨sevenFrame, .put message⟩ ∧
        message.key = (idOf 5).bytes ∧ message.value = [7] ∧ message.headerExtend = ⟨60, 2, 0⟩ ∧
        message.header.size.toNat = sevenFrame.length) ∧
      (∃ message,
        Request.parse (MessageDhtGetKeyIsHashOfData.build dhtGetKeyIsHashOfData [7]).bytes =
            .ok ⟨(MessageDhtGetKeyIsHashOfData.build dhtGetKeyIsHashOfData [7]).bytes,
              .getKeyIsHashOfData message⟩ ∧
          message.key = [7] ∧ message.header.size.toNat =
            (MessageDhtGetKeyIsHashOfData.build dhtGetKeyIsHashOfData [7]).bytes.length) ∧
      (MessageDhtPut.build (idOf 5).bytes [7] 60 2).bytes = sevenFrame := by
  refine ⟨request_roundTrip.1 (idOf 5) [7] 60 2 (by decide),
    request_roundTrip.2.2.1 [7] (by decide), ?_⟩
  exact request_roundTrip.2.2.2 sevenFrame (putRequest (idOf 5) [7] 60 2)
    ⟨⟨sevenFrame, ⟨41, dhtPut⟩⟩, ⟨60, 2, 0⟩, (idOf 5).bytes, [7]⟩
    (by decide) (by decide) (by decide) (by decide)

/-! ## Replies

The decoding constructor of `Message_DHT_SUCCESS` looks for the key behind an extended header; the
encoding constructor writes none. -/

/-- An accepted reply has a value behind the first 40 bytes. -/
lemma MessageDhtSuccess.length_value {bytes : Bytes} {header : MessageHeader}
    {message : MessageDhtSuccess} (hload : MessageHeader.load bytes 0 = .ok header)
    (hok : MessageDhtSuccess.ofBytes bytes = .ok message) :
    message.value.length + 40 = header.size.toNat := by
  rw [MessageDhtSuccess.ofBytes, MessageData.ofBytes_eq hload] at hok
  change (readRange bytes 8 40 >>= fun _ => readRange bytes 40 header.size.toNat >>= fun _ =>
    if header.size.toNat < 36 then _ else _) = _ at hok
  by_cases hrange : 40 ≤ header.size.toNat ∧ header.size.toNat ≤ bytes.length
  · rw [readRange_of_le (by omega) (by omega), readRange_of_le hrange.1 hrange.2] at hok
    change (if header.size.toNat < 36 then _ else _) = _ at hok
    rw [if_neg (by omega)] at hok
    cases hok
    change ((bytes.drop 40).take (header.size.toNat - 40)).length + 40 = _
    rw [List.length_take, List.length_drop]
    omega
  · rw [readRange_of_not hrange] at hok
    by_cases hkey : 40 ≤ bytes.length
    · rw [readRange_of_le (by omega) hkey] at hok
      cases hok
    · rw [readRange_of_not (by omega)] at hok
      cases hok

/-- The reply to a get is never decoded to its key and value: with a value of less than four bytes
the decoder reads outside the buffer, and otherwise it takes the first four bytes of the value for
the end of the key. -/
theorem not_success_roundTrip (key : ByteArr 32) (value : Bytes)
    (hvalue : 36 + value.length ≤ 65535) :
    ¬ ∃ message, MessageDhtSuccess.ofBytes (MessageDhtSuccess.build key.bytes value).bytes =
      .ok message ∧ message.key = key.bytes ∧ message.value = value := by
  rintro ⟨message, hok, -, hmessage⟩
  have hkey : key.bytes.length = 32 := key.size_eq
  have hload := MessageHeader.load_store
    ⟨UInt16.ofNat (4 + key.bytes.length + value.length), dhtSuccess⟩ (key.bytes ++ value)
  have hsize : (UInt16.ofNat (4 + key.bytes.length + value.length)).toNat =
      36 + value.length := by
    rw [toNat_ofNat_eq_iff.mpr (by omega)]
    omega
  rw [← MessageDhtSuccess.bytes_build] at hload
  have hlength := MessageDhtSuccess.length_value hload hok
  rw [hmessage, hsize] at hlength
  omega

theorem not_success_roundTrip_empty :
    (36 + ([] : Bytes).length ≤ 65535) ∧
      ¬ ∃ message, MessageDhtSuccess.ofBytes (MessageDhtSuccess.build (idOf 5).bytes []).bytes =
        .ok message ∧ message.key = (idOf 5).bytes ∧ message.value = [] :=
  ⟨by decide, not_success_roundTrip (idOf 5) [] (by decide)⟩

theorem success_empty_outOfBounds :
    MessageDhtSuccess.ofBytes (MessageDhtSuccess.build (idOf 5).bytes []).bytes =
        .error .outOfBounds ∧
      ¬ ∃ message, MessageDhtSuccess.ofBytes (MessageDhtSuccess.build (idOf 5).bytes []).bytes =
        .ok message ∧ message.key = (idOf 5).bytes ∧ message.value = [] := by
  have h : MessageDhtSuccess.ofBytes (MessageDhtSuccess.build (idOf 5).bytes []).bytes =
      .error .outOfBounds := by decide
  refine ⟨h, ?_⟩
  rintro ⟨message, hok, -⟩
  rw [h] at hok
  cases hok


end Api

end ChordPlusPlus
