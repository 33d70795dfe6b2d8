import ChordPlusPlus.Api.MessageData

/-!
# Requests

`Request` decodes the bytes of a message by the type in its header.  The header is a parameter of the
constructor; the message that it builds decodes the header once more, from the bytes.

`Connection::finish_read` delivers the bytes: the four bytes of the header and then, from the stream,
as many bytes as the size field of the header announces.
-/

namespace ChordPlusPlus

namespace Api

/-- The message that a request holds. -/
inductive DecodedData
  | put (message : MessageDhtPut)
  | key (message : MessageKey)
  | putKeyIsHashOfData (message : MessageDhtPutKeyIsHashOfData)
  | getKeyIsHashOfData (message : MessageDhtGetKeyIsHashOfData)
deriving DecidableEq

/-- `Request`. -/
structure Request where
  rawBytes : Bytes
  decodedData : DecodedData
deriving DecidableEq

/-- The constructor of `Request`. -/
def Request.ofBytes (header : MessageHeader) (bytes : Bytes) : Outcome Request := do
  if bytes.length < header.size.toNat then
    throw (.thrown (.badBufferSize "buffer smaller than specified in header"))
  if header.msgType = dhtPut then
    let message ← MessageDhtPut.ofBytes bytes
    return ⟨bytes, .put message⟩
  else if header.msgType = dhtGet then
    let message ← MessageKey.ofBytes bytes
    return ⟨bytes, .key message⟩
  else if header.msgType = dhtPutKeyIsHashOfData then
    let message ← MessageDhtPutKeyIsHashOfData.ofBytes bytes
    return ⟨bytes, .putKeyIsHashOfData message⟩
  else if header.msgType = dhtGetKeyIsHashOfData then
    let message ← MessageDhtGetKeyIsHashOfData.ofBytes bytes
    return ⟨bytes, .getKeyIsHashOfData message⟩
  else
    throw (.thrown (.badRequest ("message type incorrect: " ++ toString header.msgType)))

/-- A request whose header is the one in its first four bytes, as every caller builds it. -/
def Request.parse (bytes : Bytes) : Outcome Request := do
  let header ← MessageHeader.load bytes 0
  Request.ofBytes header bytes

/-! ## The connection -/

/-- The size of `Connection::m_data`. -/
def Connection.dataCapacity : ℕ := 2 ^ 16 - 1

/-- The size of the buffer that `Connection::finish_read` reads into: the subtraction is one of
`size_t`, and `asio::buffer` takes no more than the vector has. -/
def Connection.bodyLength (header : MessageHeader) : ℕ :=
  min ((2 ^ 64 - sizeofHeader + header.size.toNat) % 2 ^ 64) dataCapacity

/-- `Connection::finish_read`, with the header bytes `head`, on a stream of which `stream` can still
be read: the request, or none if the read ends with an error, if it is empty, or if the constructor
throws. -/
def Connection.finishRead (head : ByteArr sizeofHeader) (stream : Bytes) :
    Outcome (Option Request) := do
  let header ← MessageHeader.load head.bytes 0
  if stream.length < bodyLength header then
    return none
  else if 0 < bodyLength header then
    match Request.ofBytes header (head.bytes ++ stream.take (bodyLength header)) with
    | .ok request => return some request
    | .error (.thrown _) => return none
    | .error .outOfBounds => throw .outOfBounds
  else
    return none

/-! ## What the constructors do

The header fields are those of the buffer, and the buffer is as long as the size field says or
longer; `Request` has tested that. -/

section Constructors

variable {bytes : Bytes} {header : MessageHeader}

lemma MessageData.ofBytes_eq (hload : MessageHeader.load bytes 0 = .ok header) :
    MessageData.ofBytes bytes = .ok ⟨bytes, header⟩ := by
  rw [MessageData.ofBytes, hload]
  rfl

/-- A put message shorter than its fixed part is read outside its buffer, before the size is
tested. -/
lemma MessageDhtPut.ofBytes_of_lt (hload : MessageHeader.load bytes 0 = .ok header)
    (hsize : header.size.toNat < 40) : MessageDhtPut.ofBytes bytes = .error .outOfBounds := by
  have hvalue : readRange bytes 40 header.size.toNat = .error .outOfBounds :=
    readRange_of_not (by omega)
  rw [MessageDhtPut.ofBytes, MessageData.ofBytes_eq hload]
  rcases MessageHeaderExtend.load_eq bytes 4 with ⟨-, hext⟩ | ⟨-, headerExtend, hext⟩
  · change (MessageHeaderExtend.load bytes 4 >>= _) = _
    rw [hext]
    rfl
  · change (MessageHeaderExtend.load bytes 4 >>= fun _ => readRange bytes 8 40 >>= fun _ =>
      readRange bytes 40 header.size.toNat >>= _) = _
    rw [hext, hvalue]
    by_cases hkey : 40 ≤ bytes.length
    · rw [readRange_of_le (by omega) hkey]
      rfl
    · rw [readRange_of_not (by omega)]
      rfl

/-- What a long enough put message decodes to. -/
lemma MessageDhtPut.ofBytes_of_le (hload : MessageHeader.load bytes 0 = .ok header)
    (hsize : 40 ≤ header.size.toNat) (hlength : header.size.toNat ≤ bytes.length) :
    ∃ headerExtend, MessageHeaderExtend.load bytes 4 = .ok headerExtend ∧
      MessageDhtPut.ofBytes bytes = .ok ⟨⟨bytes, header⟩, headerExtend, (bytes.drop 8).take 32,
        (bytes.drop 40).take (header.size.toNat - 40)⟩ := by
  rcases MessageHeaderExtend.load_eq bytes 4 with ⟨hlt, -⟩ | ⟨-, headerExtend, hext⟩
  · omega
  refine ⟨headerExtend, hext, ?_⟩
  rw [MessageDhtPut.ofBytes, MessageData.ofBytes_eq hload]
  change (MessageHeaderExtend.load bytes 4 >>= fun _ => readRange bytes 8 40 >>= fun _ =>
    readRange bytes 40 header.size.toNat >>= fun _ =>
      if header.size.toNat < 40 then _ else _) = _
  rw [hext, readRange_of_le (by omega) (by omega), readRange_of_le hsize hlength]
  exact if_neg (Nat.not_lt.mpr hsize)

/-- A put message by the hash of its value that is shorter than its headers is read outside its
buffer. -/
lemma MessageDhtPutKeyIsHashOfData.ofBytes_of_lt (hload : MessageHeader.load bytes 0 = .ok header)
    (hsize : header.size.toNat < 8) :
    MessageDhtPutKeyIsHashOfData.ofBytes bytes = .error .outOfBounds := by
  rw [MessageDhtPutKeyIsHashOfData.ofBytes, MessageData.ofBytes_eq hload]
  change (MessageHeaderExtend.load bytes 4 >>= fun _ =>
    readRange bytes 8 header.size.toNat >>= _) = _
  rcases MessageHeaderExtend.load_eq bytes 4 with ⟨-, hext⟩ | ⟨-, headerExtend, hext⟩
  · rw [hext]
    rfl
  · rw [hext, readRange_of_not (by omega)]
    rfl

/-- What a long enough put message by the hash of its value decodes to. -/
lemma MessageDhtPutKeyIsHashOfData.ofBytes_of_le (hload : MessageHeader.load bytes 0 = .ok header)
    (hsize : 8 ≤ header.size.toNat) (hlength : header.size.toNat ≤ bytes.length) :
    ∃ headerExtend, MessageHeaderExtend.load bytes 4 = .ok headerExtend ∧
      MessageDhtPutKeyIsHashOfData.ofBytes bytes =
        .ok ⟨⟨bytes, header⟩, headerExtend, (bytes.drop 8).take (header.size.toNat - 8),
          (bytes.drop 8).take (header.size.toNat - 8)⟩ := by
  rcases MessageHeaderExtend.load_eq bytes 4 with ⟨hlt, -⟩ | ⟨-, headerExtend, hext⟩
  · omega
  refine ⟨headerExtend, hext, ?_⟩
  rw [MessageDhtPutKeyIsHashOfData.ofBytes, MessageData.ofBytes_eq hload]
  change (MessageHeaderExtend.load bytes 4 >>= fun _ =>
    readRange bytes 8 header.size.toNat >>= fun _ =>
      if header.size.toNat < 8 then _ else _) = _
  rw [hext, readRange_of_le hsize hlength]
  exact if_neg (Nat.not_lt.mpr hsize)

/-- A key message without 32 bytes behind its header is read outside its buffer. -/
lemma MessageKey.ofBytes_of_length_lt (hload : MessageHeader.load bytes 0 = .ok header)
    (hlength : bytes.length < 36) : MessageKey.ofBytes bytes = .error .outOfBounds := by
  rw [MessageKey.ofBytes, MessageData.ofBytes_eq hload]
  change (readRange bytes 4 36 >>= _) = _
  rw [readRange_of_not (by omega)]
  rfl

/-- A key message in a long enough buffer is tested by its size field. -/
lemma MessageKey.ofBytes_of_length_le (hload : MessageHeader.load bytes 0 = .ok header)
    (hlength : 36 ≤ bytes.length) :
    MessageKey.ofBytes bytes =
      if header.size.toNat < 36 then .error (.thrown (.runtimeError "Key is too small!"))
      else .ok ⟨⟨bytes, header⟩, (bytes.drop 4).take 32⟩ := by
  rw [MessageKey.ofBytes, MessageData.ofBytes_eq hload]
  change (readRange bytes 4 36 >>= fun _ => if header.size.toNat < 36 then _ else _) = _
  rw [readRange_of_le (by omega) hlength]
  rfl

/-- A get message by the hash of the value never reads outside its buffer. -/
lemma MessageDhtGetKeyIsHashOfData.ofBytes_eq (hload : MessageHeader.load bytes 0 = .ok header) :
    MessageDhtGetKeyIsHashOfData.ofBytes bytes =
      if header.size.toNat < 4 then .error (.thrown (.runtimeError "Key is too small!"))
      else .ok ⟨⟨bytes, header⟩, bytes.drop 4⟩ := by
  have hlength := MessageHeader.length_of_load hload
  have hread : readRange bytes 4 bytes.length = .ok (bytes.drop 4) := by
    rw [readRange_of_le (by omega) le_rfl, List.take_of_length_le (by simp)]
  rw [MessageDhtGetKeyIsHashOfData.ofBytes, MessageData.ofBytes_eq hload]
  change (readRange bytes 4 bytes.length >>= fun _ => if header.size.toNat < 4 then _ else _) = _
  rw [hread]
  rfl

/-! ### The dispatch on the message type -/

lemma Request.ofBytes_of_lt (hlength : bytes.length < header.size.toNat) :
    Request.ofBytes header bytes =
      .error (.thrown (.badBufferSize "buffer smaller than specified in header")) := by
  rw [Request.ofBytes, if_pos hlength]
  rfl

lemma Request.ofBytes_dhtPut (hlength : header.size.toNat ≤ bytes.length)
    (htype : header.msgType = dhtPut) :
    Request.ofBytes header bytes =
      (MessageDhtPut.ofBytes bytes).map fun message => ⟨bytes, .put message⟩ := by
  rw [Request.ofBytes, if_neg (Nat.not_lt.mpr hlength), if_pos htype]
  cases MessageDhtPut.ofBytes bytes <;> rfl

lemma Request.ofBytes_dhtGet (hlength : header.size.toNat ≤ bytes.length)
    (htype : header.msgType = dhtGet) :
    Request.ofBytes header bytes =
      (MessageKey.ofBytes bytes).map fun message => ⟨bytes, .key message⟩ := by
  rw [Request.ofBytes, if_neg (Nat.not_lt.mpr hlength), htype, if_neg (by decide), if_pos rfl]
  cases MessageKey.ofBytes bytes <;> rfl

lemma Request.ofBytes_dhtPutKeyIsHashOfData (hlength : header.size.toNat ≤ bytes.length)
    (htype : header.msgType = dhtPutKeyIsHashOfData) :
    Request.ofBytes header bytes = (MessageDhtPutKeyIsHashOfData.ofBytes bytes).map
      fun message => ⟨bytes, .putKeyIsHashOfData message⟩ := by
  rw [Request.ofBytes, if_neg (Nat.not_lt.mpr hlength), htype, if_neg (by decide),
    if_neg (by decide), if_pos rfl]
  cases MessageDhtPutKeyIsHashOfData.ofBytes bytes <;> rfl

lemma Request.ofBytes_dhtGetKeyIsHashOfData (hlength : header.size.toNat ≤ bytes.length)
    (htype : header.msgType = dhtGetKeyIsHashOfData) :
    Request.ofBytes header bytes = (MessageDhtGetKeyIsHashOfData.ofBytes bytes).map
      fun message => ⟨bytes, .getKeyIsHashOfData message⟩ := by
  rw [Request.ofBytes, if_neg (Nat.not_lt.mpr hlength), htype, if_neg (by decide),
    if_neg (by decide), if_neg (by decide), if_pos rfl]
  cases MessageDhtGetKeyIsHashOfData.ofBytes bytes <;> rfl

lemma Request.ofBytes_of_ne (hlength : header.size.toNat ≤ bytes.length)
    (hput : header.msgType ≠ dhtPut) (hget : header.msgType ≠ dhtGet)
    (hputHash : header.msgType ≠ dhtPutKeyIsHashOfData)
    (hgetHash : header.msgType ≠ dhtGetKeyIsHashOfData) :
    ∃ e, Request.ofBytes header bytes = .error (.thrown e) := by
  rw [Request.ofBytes, if_neg (Nat.not_lt.mpr hlength), if_neg hput, if_neg hget,
    if_neg hputHash, if_neg hgetHash]
  exact ⟨_, rfl⟩

/-- What is known of an accepted request. -/
lemma Request.cases_of_ofBytes_eq_ok {request : Request}
    (hload : MessageHeader.load bytes 0 = .ok header)
    (hok : Request.ofBytes header bytes = .ok request) :
    header.size.toNat ≤ bytes.length ∧
      ((header.msgType = dhtPut ∧ 40 ≤ header.size.toNat ∧
          ∃ headerExtend, MessageHeaderExtend.load bytes 4 = .ok headerExtend ∧
            request = ⟨bytes, .put ⟨⟨bytes, header⟩, headerExtend, (bytes.drop 8).take 32,
              (bytes.drop 40).take (header.size.toNat - 40)⟩⟩) ∨
        (header.msgType = dhtGet ∧ 36 ≤ header.size.toNat ∧
          request = ⟨bytes, .key ⟨⟨bytes, header⟩, (bytes.drop 4).take 32⟩⟩) ∨
        (header.msgType = dhtPutKeyIsHashOfData ∧ 8 ≤ header.size.toNat ∧
          ∃ headerExtend, MessageHeaderExtend.load bytes 4 = .ok headerExtend ∧
            request = ⟨bytes, .putKeyIsHashOfData ⟨⟨bytes, header⟩, headerExtend,
              (bytes.drop 8).take (header.size.toNat - 8),
              (bytes.drop 8).take (header.size.toNat - 8)⟩⟩) ∨
        (header.msgType = dhtGetKeyIsHashOfData ∧ 4 ≤ header.size.toNat ∧
          request = ⟨bytes, .getKeyIsHashOfData ⟨⟨bytes, header⟩, bytes.drop 4⟩⟩)) := by
  by_cases hlength : bytes.length < header.size.toNat
  · rw [Request.ofBytes_of_lt hlength] at hok
    cases hok
  have hle := Nat.not_lt.mp hlength
  refine ⟨hle, ?_⟩
  by_cases hput : header.msgType = dhtPut
  · rw [Request.ofBytes_dhtPut hle hput] at hok
    by_cases hsize : 40 ≤ header.size.toNat
    · obtain ⟨headerExtend, hext, hmessage⟩ := MessageDhtPut.ofBytes_of_le hload hsize hle
      rw [hmessage] at hok
      exact Or.inl ⟨hput, hsize, headerExtend, hext, (Except.ok.inj hok).symm⟩
    · rw [MessageDhtPut.ofBytes_of_lt hload (by omega)] at hok
      cases hok
  by_cases hget : header.msgType = dhtGet
  · rw [Request.ofBytes_dhtGet hle hget] at hok
    by_cases hkey : 36 ≤ bytes.length
    · rw [MessageKey.ofBytes_of_length_le hload hkey] at hok
      split_ifs at hok with hsize
      · cases hok
      · exact Or.inr (Or.inl ⟨hget, by omega, (Except.ok.inj hok).symm⟩)
    · rw [MessageKey.ofBytes_of_length_lt hload (by omega)] at hok
      cases hok
  by_cases hputHash : header.msgType = dhtPutKeyIsHashOfData
  · rw [Request.ofBytes_dhtPutKeyIsHashOfData hle hputHash] at hok
    by_cases hsize : 8 ≤ header.size.toNat
    · obtain ⟨headerExtend, hext, hmessage⟩ :=
        MessageDhtPutKeyIsHashOfData.ofBytes_of_le hload hsize hle
      rw [hmessage] at hok
      exact Or.inr (Or.inr (Or.inl
        ⟨hputHash, hsize, headerExtend, hext, (Except.ok.inj hok).symm⟩))
    · rw [MessageDhtPutKeyIsHashOfData.ofBytes_of_lt hload (by omega)] at hok
      cases hok
  by_cases hgetHash : header.msgType = dhtGetKeyIsHashOfData
  · rw [Request.ofBytes_dhtGetKeyIsHashOfData hle hgetHash,
      MessageDhtGetKeyIsHashOfData.ofBytes_eq hload] at hok
    split_ifs at hok with hsize
    · cases hok
    · exact Or.inr (Or.inr (Or.inr ⟨hgetHash, by omega, (Except.ok.inj hok).symm⟩))
  · obtain ⟨e, he⟩ := Request.ofBytes_of_ne hle hput hget hputHash hgetHash
    rw [he] at hok
    cases hok

/-- A request that the connection delivers is built from the header and the announced number of
bytes. -/
lemma Connection.ofBytes_of_finishRead {head : ByteArr sizeofHeader} {stream : Bytes}
    {request : Request} (hload : MessageHeader.load head.bytes 0 = .ok header)
    (hread : Connection.finishRead head stream = .ok (some request)) :
    0 < bodyLength header ∧ bodyLength header ≤ stream.length ∧
      Request.ofBytes header (head.bytes ++ stream.take (bodyLength header)) = .ok request := by
  rw [Connection.finishRead, hload] at hread
  simp only [bind, Except.bind, pure, Except.pure, throw, throwThe, MonadExceptOf.throw] at hread
  split_ifs at hread with hshort hpos
  · simp at hread
  · refine ⟨hpos, Nat.not_lt.mp hshort, ?_⟩
    cases hrequest : Request.ofBytes header (head.bytes ++ stream.take (bodyLength header)) with
    | ok delivered =>
      rw [hrequest] at hread
      simpa using hread
    | error fault =>
      rw [hrequest] at hread
      cases fault <;> simp at hread
  · simp at hread

end Constructors

end Api

end ChordPlusPlus
