import ChordPlusPlus.Api.Request
import ChordPlusPlus.Foundation.Run

/-!
# The read machine of a connection

`Connection::start_read` asks for the four bytes of a header, `Connection::finish_read` for the body
that the header announces, and each is called from the completion handler of the other.  Both read
into members of the connection, `m_header` and `m_data`, that are used again for every frame.

`Reader` is the connection between two completions: its buffers, the read that it waits for and the
handler calls made so far.  One step completes the outstanding read.  The socket is a parameter of
the step, a byte stream and whether the peer has closed its end: while the peer may still write, a
read completes with exactly the requested bytes or not yet; behind the end of the stream it completes
with an error and what was left.

For a stream of frames the machine calls the handlers of exactly the frames that have a body, that
`Request` accepts and that have a handler (`reads_frames`).  The size of a body is computed modulo
`2 ^ 64`, so a header that announces fewer than four bytes makes the machine read the frames behind
it as its body (`keepsFrames_iff`).  The handler of the header asks for the body before it
looks at its error, so the machine does not stop at the end of the stream (`not_stopsAtEnd`).
-/

namespace ChordPlusPlus

/-- The array after its first bytes have been overwritten. -/
def ByteArr.overwrite {n : ℕ} (a : ByteArr n) (bytes : Bytes) : ByteArr n where
  bytes := (Slice.write a.bytes 0 bytes).take n
  size_eq := by
    have hlength := a.size_eq
    simp only [Slice.write, List.take_zero, List.nil_append, List.length_take,
      List.length_append, List.length_drop]
    omega

namespace Api

/-- The base of a decoded message, `MessageData`. -/
def DecodedData.data : DecodedData → MessageData
  | .put message => message.toMessageData
  | .key message => message.toMessageData
  | .putKeyIsHashOfData message => message.toMessageData
  | .getKeyIsHashOfData message => message.toMessageData

/-- The request that the constructor leaves, if it returns.  What a constructor does that reads
outside its buffer is not defined; `undefined` stands for it. -/
def Request.construct (undefined : Bytes → Option DecodedData) (header : MessageHeader)
    (bytes : Bytes) : Option Request :=
  match Request.ofBytes header bytes with
  | .ok request => some request
  | .error (.thrown _) => none
  | .error .outOfBounds => (undefined bytes).map fun decodedData => ⟨bytes, decodedData⟩

/-! ## The machine -/

/-- What a completion handler is given: whether the read failed, and the bytes that were read. -/
structure Completion where
  error : Bool
  bytes : Bytes
deriving DecidableEq

/-- `asio::async_read` of `n` bytes from a stream, with what remains of the stream.  It waits for
bytes that the peer may still write. -/
def asyncRead (closed : Bool) (n : ℕ) (stream : Bytes) : Option (Completion × Bytes) :=
  if n ≤ stream.length then some (⟨false, stream.take n⟩, stream.drop n)
  else if closed then some (⟨true, stream⟩, [])
  else none

/-- The read that a connection waits for; the handler of the body has captured the header. -/
inductive Pending
  | header
  | body (header : MessageHeader)
deriving DecidableEq

/-- A `Connection`, as far as reading goes. -/
structure Reader where
  isOpen : Bool
  /-- `m_header`. -/
  header : ByteArr sizeofHeader
  /-- `m_data`. -/
  data : ByteArr Connection.dataCapacity
  pending : Option Pending
  /-- The requests whose handlers have been called, in the order of the calls. -/
  handlerCalls : List Request

namespace Reader

/-- `Connection::start_read`. -/
def startRead (reader : Reader) : Reader :=
  if reader.isOpen then { reader with pending := some .header } else reader

/-- `Connection::finish_read`. -/
def finishRead (reader : Reader) : Reader :=
  if reader.isOpen then
    match MessageHeader.load reader.header.bytes 0 with
    | .ok header => { reader with pending := some (.body header) }
    -- Not reached: the array has the four bytes of a header.
    | .error _ => reader
  else reader

/-- The constructor, with what `m_header` happens to hold. -/
def start (head : ByteArr sizeofHeader) : Reader :=
  startRead
    { isOpen := true
      header := head
      data := ⟨List.replicate Connection.dataCapacity 0, List.length_replicate⟩
      pending := none
      handlerCalls := [] }

/-- The completion handler of `start_read`.  The error is tested last, and only for the log. -/
def headerRead (reader : Reader) (completion : Completion) : Reader :=
  finishRead
    { reader with header := reader.header.overwrite completion.bytes, pending := none }

section Handlers

variable (handlers : UInt16 → Bool) (undefined : Bytes → Option DecodedData)

/-- The part of the completion handler of `finish_read` that builds the request and calls its
handler.  Here `m_handlerCallMutex` is free and `std::async` succeeds: `Manager.request` is the
same call where the mutex may be held, and shows how it blocks. -/
def dispatch (reader : Reader) (header : MessageHeader) (bytes : Bytes) : Reader :=
  match Request.construct undefined header bytes with
  | none => reader
  | some request =>
    if reader.isOpen && handlers request.decodedData.data.header.msgType then
      { reader with handlerCalls := reader.handlerCalls ++ [request] }
    else reader

/-- The completion handler of `finish_read`. -/
def bodyRead (reader : Reader) (header : MessageHeader) (completion : Completion) : Reader :=
  let reader :=
    { reader with data := reader.data.overwrite completion.bytes, pending := none }
  let length := completion.bytes.length
  let bytes := reader.header.bytes ++ reader.data.bytes.take length
  let reader := reader.startRead
  if completion.error then reader
  else if 0 < length then reader.dispatch handlers undefined header bytes
  else reader

/-- One completion. -/
def step (closed : Bool) (state : Reader × Bytes) : Option (Reader × Bytes) :=
  match state.1.pending with
  | none => none
  | some .header =>
    (asyncRead closed sizeofHeader state.2).map fun read =>
      (state.1.headerRead read.1, read.2)
  | some (.body header) =>
    (asyncRead closed (Connection.bodyLength header) state.2).map fun read =>
      (state.1.bodyRead handlers undefined header read.1, read.2)

/-- The state after `k` completions, if there are that many. -/
def reads (closed : Bool) (k : ℕ) (state : Reader × Bytes) : Option (Reader × Bytes) :=
  Run.exec (fun _ : Unit => step handlers undefined closed) (List.replicate k ()) state

end Handlers

/-! ## Single completions -/

/-- The request that a body makes a handler call of: one that the constructor accepts and that has a
handler. -/
def call (handlers : UInt16 → Bool) (undefined : Bytes → Option DecodedData)
    (header : MessageHeader) (bytes : Bytes) : Option Request :=
  (Request.construct undefined header bytes).filter fun request =>
    handlers request.decodedData.data.header.msgType

section Steps

variable {handlers : UInt16 → Bool} {undefined : Bytes → Option DecodedData} {closed : Bool}

/-- The buffer of a header holds a header. -/
lemma exists_load (head : ByteArr sizeofHeader) :
    ∃ header, MessageHeader.load head.bytes 0 = .ok header := by
  obtain ⟨bytes, hsize⟩ := head
  rcases bytes with _ | ⟨a, _ | ⟨b, _ | ⟨c, _ | ⟨d, rest⟩⟩⟩⟩
  all_goals try cases hsize
  exact ⟨_, rfl⟩

/-- Overwriting an array with fewer bytes than it has puts them at its front. -/
lemma take_overwrite {n : ℕ} (a : ByteArr n) {bytes : Bytes} (hlength : bytes.length ≤ n) :
    (a.overwrite bytes).bytes.take bytes.length = bytes := by
  change ((bytes ++ _).take n).take bytes.length = bytes
  rw [List.take_take, min_eq_left hlength, List.take_left]

/-- An array that is overwritten as a whole holds the new bytes only. -/
lemma bytes_overwrite {n : ℕ} (a : ByteArr n) {bytes : Bytes} (hlength : bytes.length = n) :
    (a.overwrite bytes).bytes = bytes := by
  have htake := take_overwrite a hlength.le
  rwa [List.take_of_length_le (by rw [hlength, (a.overwrite bytes).size_eq])] at htake

/-- A read of `n` bytes that `n` bytes are there for. -/
lemma asyncRead_append {bytes rest : Bytes} {n : ℕ} (hlength : bytes.length = n) :
    asyncRead closed n (bytes ++ rest) = some (⟨false, bytes⟩, rest) := by
  rw [asyncRead, if_pos (by rw [List.length_append]; omega), List.take_left' hlength,
    List.drop_left' hlength]

/-- What a read that succeeds, or does not, has taken from the stream. -/
lemma asyncRead_cases {n : ℕ} {stream rest : Bytes} {completion : Completion}
    (h : asyncRead closed n stream = some (completion, rest)) :
    stream = completion.bytes ++ rest ∧
      ((completion.error = false ∧ completion.bytes.length = n) ∨
        (completion.error = true ∧ completion.bytes.length < n ∧ rest = [])) := by
  unfold asyncRead at h
  split_ifs at h with hn hclosed
  · obtain ⟨rfl, rfl⟩ := Prod.mk.inj (Option.some.inj h)
    exact ⟨(List.take_append_drop n stream).symm, Or.inl ⟨rfl, List.length_take_of_le hn⟩⟩
  · obtain ⟨rfl, rfl⟩ := Prod.mk.inj (Option.some.inj h)
    exact ⟨(List.append_nil stream).symm, Or.inr ⟨rfl, Nat.lt_of_not_le hn, rfl⟩⟩

/-- Behind the end of the stream every read completes. -/
lemma exists_asyncRead (n : ℕ) (stream : Bytes) : ∃ read, asyncRead true n stream = some read := by
  by_cases hn : n ≤ stream.length
  · exact ⟨_, if_pos hn⟩
  · exact ⟨_, if_neg hn⟩

/-- Whether the header was read or not, the next read is one of a body. -/
lemma headerRead_eq {reader : Reader} (hopen : reader.isOpen = true) (completion : Completion) :
    ∃ header, MessageHeader.load (reader.header.overwrite completion.bytes).bytes 0 = .ok header ∧
      reader.headerRead completion =
        { reader with
          header := reader.header.overwrite completion.bytes
          pending := some (.body header) } := by
  obtain ⟨header, hload⟩ := exists_load (reader.header.overwrite completion.bytes)
  refine ⟨header, hload, ?_⟩
  rw [headerRead, finishRead, if_pos hopen]
  simp only [hload]

lemma dispatch_eq {reader : Reader} (hopen : reader.isOpen = true) (header : MessageHeader)
    (bytes : Bytes) :
    reader.dispatch handlers undefined header bytes =
      { reader with
        handlerCalls := reader.handlerCalls ++ (call handlers undefined header bytes).toList } := by
  unfold dispatch call
  rcases Request.construct undefined header bytes with _ | request
  · simp
  · cases hhandler : handlers request.decodedData.data.header.msgType
    · simp [Option.filter, hhandler]
    · simp [Option.filter, hhandler, hopen]

/-- The next read after that of a body is one of a header. -/
lemma bodyRead_eq {reader : Reader} (hopen : reader.isOpen = true) (header : MessageHeader)
    {completion : Completion} (hlength : completion.bytes.length ≤ Connection.dataCapacity) :
    reader.bodyRead handlers undefined header completion =
      { reader with
        data := reader.data.overwrite completion.bytes
        pending := some .header
        handlerCalls := reader.handlerCalls ++
          if completion.error = false ∧ completion.bytes ≠ [] then
            (call handlers undefined header (reader.header.bytes ++ completion.bytes)).toList
          else [] } := by
  simp only [bodyRead, startRead, if_pos hopen, take_overwrite _ hlength]
  rw [dispatch_eq (by exact hopen)]
  cases completion.error with
  | true => simp
  | false =>
    rcases completion.bytes with _ | ⟨b, bytes⟩
    · simp
    · simp

/-- A connection that waits for a read. -/
structure Waiting (reader : Reader) (pending : Pending) : Prop where
  isOpen : reader.isOpen = true
  pending_eq : reader.pending = some pending

/-- No body is longer than the buffer. -/
lemma length_le_dataCapacity {header : MessageHeader} {stream rest : Bytes}
    {completion : Completion}
    (hread : asyncRead closed (Connection.bodyLength header) stream = some (completion, rest)) :
    completion.bytes.length ≤ Connection.dataCapacity := by
  have hmin : Connection.bodyLength header ≤ Connection.dataCapacity := min_le_right _ _
  rcases (asyncRead_cases hread).2 with ⟨-, hlength⟩ | ⟨-, hlength, -⟩ <;> omega

/-- What the completion of a header read leaves. -/
lemma step_of_headerRead {reader : Reader} (hwaiting : reader.Waiting .header)
    {stream rest : Bytes} {completion : Completion}
    (hread : asyncRead closed sizeofHeader stream = some (completion, rest)) :
    ∃ next header, step handlers undefined closed (reader, stream) = some (next, rest) ∧
      next.header = reader.header.overwrite completion.bytes ∧
      MessageHeader.load next.header.bytes 0 = .ok header ∧
      next.Waiting (.body header) ∧ next.handlerCalls = reader.handlerCalls := by
  obtain ⟨header, hload, heq⟩ := headerRead_eq hwaiting.isOpen completion
  refine ⟨reader.headerRead completion, header, ?_, ?_⟩
  · simp only [step, hwaiting.pending_eq, hread, Option.map_some]
  · rw [heq]
    exact ⟨rfl, hload, ⟨hwaiting.isOpen, rfl⟩, rfl⟩

/-- What the completion of a body read leaves. -/
lemma step_of_bodyRead {reader : Reader} {header : MessageHeader}
    (hwaiting : reader.Waiting (.body header)) {stream rest : Bytes} {completion : Completion}
    (hread : asyncRead closed (Connection.bodyLength header) stream = some (completion, rest)) :
    ∃ next, step handlers undefined closed (reader, stream) = some (next, rest) ∧
      next.header = reader.header ∧ next.Waiting .header ∧
      next.handlerCalls = reader.handlerCalls ++
        if completion.error = false ∧ completion.bytes ≠ [] then
          (call handlers undefined header (reader.header.bytes ++ completion.bytes)).toList
        else [] := by
  refine ⟨reader.bodyRead handlers undefined header completion, ?_, ?_⟩
  · simp only [step, hwaiting.pending_eq, hread, Option.map_some]
  · rw [bodyRead_eq hwaiting.isOpen header (length_le_dataCapacity hread)]
    exact ⟨rfl, ⟨hwaiting.isOpen, rfl⟩, rfl⟩

/-- What a completion leaves of a connection that waits for a read. -/
lemma step_cases {reader : Reader} {pending : Pending} (hwaiting : reader.Waiting pending)
    {stream : Bytes} {state : Reader × Bytes}
    (hstep : step handlers undefined closed (reader, stream) = some state) :
    (pending = .header ∧ ∃ completion header,
      asyncRead closed sizeofHeader stream = some (completion, state.2) ∧
      state.1.header = reader.header.overwrite completion.bytes ∧
      MessageHeader.load state.1.header.bytes 0 = .ok header ∧
      state.1.Waiting (.body header) ∧ state.1.handlerCalls = reader.handlerCalls) ∨
    (∃ header completion, pending = .body header ∧
      asyncRead closed (Connection.bodyLength header) stream = some (completion, state.2) ∧
      state.1.header = reader.header ∧ state.1.Waiting .header ∧
      state.1.handlerCalls = reader.handlerCalls ++
        if completion.error = false ∧ completion.bytes ≠ [] then
          (call handlers undefined header (reader.header.bytes ++ completion.bytes)).toList
        else []) := by
  rcases pending with _ | header
  · have hstep' := hstep
    simp only [step, hwaiting.pending_eq, Option.map_eq_some_iff] at hstep'
    obtain ⟨⟨completion, rest⟩, hread, rfl⟩ := hstep'
    obtain ⟨next, header, hnext, hspec⟩ := step_of_headerRead hwaiting hread
    obtain rfl : next = reader.headerRead completion :=
      congrArg Prod.fst (Option.some.inj (hnext.symm.trans hstep))
    exact Or.inl ⟨rfl, completion, header, hread, hspec⟩
  · have hstep' := hstep
    simp only [step, hwaiting.pending_eq, Option.map_eq_some_iff] at hstep'
    obtain ⟨⟨completion, rest⟩, hread, rfl⟩ := hstep'
    obtain ⟨next, hnext, hspec⟩ := step_of_bodyRead hwaiting hread
    obtain rfl : next = reader.bodyRead handlers undefined header completion :=
      congrArg Prod.fst (Option.some.inj (hnext.symm.trans hstep))
    exact Or.inr ⟨header, completion, rfl, hread, hspec⟩

/-- A connection goes on waiting. -/
lemma Waiting.step {reader : Reader} {pending : Pending} (hwaiting : reader.Waiting pending)
    {stream : Bytes} {state : Reader × Bytes}
    (hstep : Reader.step handlers undefined closed (reader, stream) = some state) :
    ∃ next, state.1.Waiting next := by
  rcases step_cases hwaiting hstep with ⟨-, _, header, -, -, -, hnext, -⟩ | ⟨_, _, -, -, -, hnext, -⟩
  · exact ⟨.body header, hnext⟩
  · exact ⟨.header, hnext⟩

/-- Without bytes on the stream no handler is called, and no bytes appear. -/
lemma step_nil {reader : Reader} {pending : Pending} (hwaiting : reader.Waiting pending)
    {state : Reader × Bytes}
    (hstep : step handlers undefined closed (reader, []) = some state) :
    state.2 = [] ∧ state.1.handlerCalls = reader.handlerCalls := by
  rcases step_cases hwaiting hstep with
    ⟨-, completion, _, hread, -, -, -, hcalls⟩ | ⟨_, completion, -, hread, -, -, hcalls⟩
  · obtain ⟨-, hrest⟩ := List.nil_eq_append_iff.mp (asyncRead_cases hread).1
    exact ⟨hrest, hcalls⟩
  · obtain ⟨hbytes, hrest⟩ := List.nil_eq_append_iff.mp (asyncRead_cases hread).1
    rw [hbytes] at hcalls
    refine ⟨hrest, ?_⟩
    simpa using hcalls

/-- The handler call that a body makes is that of the request which `Connection.finishRead` builds, if
there is a handler for it.  `Connection.finishRead` sees one frame, and no undefined behaviour. -/
theorem handlerCalls_of_finishRead {reader : Reader} {header : MessageHeader}
    (hwaiting : reader.Waiting (.body header))
    (hload : MessageHeader.load reader.header.bytes 0 = .ok header) {stream : Bytes}
    {result : Option Request} (hresult : Connection.finishRead reader.header stream = .ok result)
    {state : Reader × Bytes}
    (hstep : step handlers undefined true (reader, stream) = some state) :
    state.1.handlerCalls = reader.handlerCalls ++
      (result.filter fun request => handlers request.decodedData.data.header.msgType).toList := by
  rcases step_cases hwaiting hstep with
    ⟨hpending, -⟩ | ⟨header', completion, hpending, hread, -, -, hcalls⟩
  · cases hpending
  obtain rfl : header = header' := Pending.body.inj hpending
  rw [hcalls]
  congr 1
  rw [Connection.finishRead, hload] at hresult
  simp only [bind, Except.bind, pure, Except.pure, throw, throwThe, MonadExceptOf.throw] at hresult
  obtain ⟨hsplit, hcompletion⟩ := asyncRead_cases hread
  rcases hcompletion with ⟨herror, hlength⟩ | ⟨herror, hlength, hrest⟩
  · have hlong : ¬ stream.length < Connection.bodyLength header := by
      rw [hsplit, List.length_append]
      omega
    have htake : stream.take (Connection.bodyLength header) = completion.bytes := by
      rw [hsplit, List.take_left' hlength]
    rw [if_neg hlong, htake] at hresult
    by_cases hpos : 0 < Connection.bodyLength header
    · rw [if_pos hpos] at hresult
      rw [if_pos ⟨herror, List.ne_nil_of_length_pos (hlength ▸ hpos)⟩, call, Request.construct]
      rcases hbytes : Request.ofBytes header (reader.header.bytes ++ completion.bytes) with
        (_ | _) | request
      · rw [hbytes] at hresult
        obtain rfl := Except.ok.inj hresult
        rfl
      · rw [hbytes] at hresult
        cases hresult
      · rw [hbytes] at hresult
        obtain rfl := Except.ok.inj hresult
        rfl
    · rw [if_neg hpos] at hresult
      obtain rfl := Except.ok.inj hresult
      have hempty : completion.bytes = [] := List.eq_nil_of_length_eq_zero (by omega)
      simp [hempty]
  · have hshort : stream.length < Connection.bodyLength header := by
      rw [hsplit, hrest, List.append_nil]
      exact hlength
    rw [if_pos hshort] at hresult
    obtain rfl := Except.ok.inj hresult
    simp [herror]

end Steps

/-! ## Streams of frames -/

end Reader

/-- A frame: bytes whose size field is their number.  A header lies in them, so that there are at
least four. -/
structure Frame where
  bytes : Bytes
  header : MessageHeader
  load_eq : MessageHeader.load bytes 0 = .ok header
  size_eq : header.size.toNat = bytes.length

namespace Frame

/-- A frame starts with its header. -/
lemma sizeofHeader_le (frame : Frame) : sizeofHeader ≤ frame.bytes.length := by
  have hlength := MessageHeader.length_of_load frame.load_eq
  rwa [Nat.zero_add] at hlength

/-- The part of a frame that `m_header` takes. -/
def head (frame : Frame) : ByteArr sizeofHeader :=
  ⟨frame.bytes.take sizeofHeader, List.length_take_of_le frame.sizeofHeader_le⟩

/-- The part of a frame that `m_data` takes. -/
def body (frame : Frame) : Bytes := frame.bytes.drop sizeofHeader

lemma head_append_body (frame : Frame) : frame.head.bytes ++ frame.body = frame.bytes :=
  List.take_append_drop _ _

lemma load_head (frame : Frame) : MessageHeader.load frame.head.bytes 0 = .ok frame.header := by
  obtain ⟨header, hload⟩ := Reader.exists_load frame.head
  have happend := MessageHeader.load_append hload frame.body
  rw [head_append_body, frame.load_eq] at happend
  rw [hload, happend]

/-- The connection asks for exactly the body of a frame. -/
lemma length_body (frame : Frame) : frame.body.length = Connection.bodyLength frame.header := by
  have hlower := frame.sizeofHeader_le
  have hupper := frame.header.size.toNat_lt
  have hsize := frame.size_eq
  rw [body, List.length_drop, Connection.bodyLength, Connection.dataCapacity]
  unfold sizeofHeader at hlower ⊢
  omega

/-- The handler call that a frame asks for: it has a body, `Request` accepts it, and there is a
handler for it. -/
def call (handlers : UInt16 → Bool) (undefined : Bytes → Option DecodedData) (frame : Frame) :
    Option Request :=
  if frame.body = [] then none else Reader.call handlers undefined frame.header frame.bytes

end Frame

namespace Reader

section Frames

variable {handlers : UInt16 → Bool} {undefined : Bytes → Option DecodedData} {closed : Bool}

/-- The number of completions adds up. -/
lemma reads_add {i j : ℕ} {s t : Reader × Bytes} :
    reads handlers undefined closed (i + j) s = some t ↔
      ∃ u, reads handlers undefined closed i s = some u ∧
        reads handlers undefined closed j u = some t := by
  rw [reads, List.replicate_add, Run.exec_append_eq_some]
  rfl

/-- One more completion. -/
lemma reads_succ {k : ℕ} {s t : Reader × Bytes} :
    reads handlers undefined closed (k + 1) s = some t ↔
      ∃ u, step handlers undefined closed s = some u ∧
        reads handlers undefined closed k u = some t :=
  Run.exec_cons_eq_some

/-- What completions preserve while the connection waits, and it goes on waiting. -/
lemma Waiting.invariant {P : Reader × Bytes → Prop}
    (hstep : ∀ s t pending, s.1.Waiting pending → P s →
      Reader.step handlers undefined closed s = some t → P t)
    {k : ℕ} {s t : Reader × Bytes} {pending : Pending} (hwaiting : s.1.Waiting pending) (hs : P s)
    (hreads : Reader.reads handlers undefined closed k s = some t) :
    (∃ next, t.1.Waiting next) ∧ P t := by
  refine Run.exec_invariant (P := fun u => (∃ next, u.1.Waiting next) ∧ P u) ?_
    ⟨⟨pending, hwaiting⟩, hs⟩ hreads
  rintro - u v ⟨⟨next, hnext⟩, hu⟩ huv
  exact ⟨hnext.step huv, hstep u v next hnext hu huv⟩

/-- A connection goes on waiting, however many reads complete. -/
lemma Waiting.reads {k : ℕ} {s t : Reader × Bytes} {pending : Pending}
    (hwaiting : s.1.Waiting pending)
    (hreads : Reader.reads handlers undefined closed k s = some t) : ∃ next, t.1.Waiting next :=
  (hwaiting.invariant (P := fun _ => True) (fun _ _ _ _ _ _ => trivial) trivial hreads).1

lemma waiting_start (head : ByteArr sizeofHeader) : (start head).Waiting .header := ⟨rfl, rfl⟩

/-- A whole header on the stream is what `m_header` holds afterwards. -/
lemma step_head {reader : Reader} (hwaiting : reader.Waiting .header) {head : ByteArr sizeofHeader}
    {header : MessageHeader} (hload : MessageHeader.load head.bytes 0 = .ok header) (rest : Bytes) :
    ∃ next, step handlers undefined closed (reader, head.bytes ++ rest) = some (next, rest) ∧
      next.header.bytes = head.bytes ∧ next.Waiting (.body header) ∧
      next.handlerCalls = reader.handlerCalls := by
  obtain ⟨next, header', hstep, hheader, hload', hnext, hcalls⟩ :=
    step_of_headerRead hwaiting (asyncRead_append head.size_eq)
  have hbytes : next.header.bytes = head.bytes := by
    rw [hheader]
    exact bytes_overwrite reader.header head.size_eq
  rw [hbytes, hload] at hload'
  obtain rfl : header = header' := Except.ok.inj hload'
  exact ⟨next, hstep, hbytes, hnext, hcalls⟩

/-- Two completions take one frame from the stream, whatever the buffers held. -/
lemma reads_frame {reader : Reader} (hwaiting : reader.Waiting .header) (frame : Frame)
    (rest : Bytes) :
    ∃ next, reads handlers undefined closed 2 (reader, frame.bytes ++ rest) = some (next, rest) ∧
      next.Waiting .header ∧
      next.handlerCalls = reader.handlerCalls ++ (frame.call handlers undefined).toList := by
  obtain ⟨middle, hfirst, hheader, hmiddle, hcalls⟩ :=
    step_head hwaiting frame.load_head (frame.body ++ rest)
  obtain ⟨next, hsecond, -, hnext, hcalls'⟩ :=
    step_of_bodyRead hmiddle (asyncRead_append frame.length_body)
  rw [← List.append_assoc, frame.head_append_body] at hfirst
  refine ⟨next, reads_succ.mpr ⟨_, hfirst, reads_succ.mpr ⟨_, hsecond, rfl⟩⟩, hnext, ?_⟩
  rw [hcalls', hcalls, hheader, frame.head_append_body, Frame.call]
  split_ifs <;> simp_all

/-- The frames of a stream are taken one after the other. -/
lemma reads_flatMap {reader : Reader} (hwaiting : reader.Waiting .header) (frames : List Frame) :
    ∃ next, reads handlers undefined closed (2 * frames.length)
        (reader, frames.flatMap Frame.bytes) = some (next, []) ∧
      next.Waiting .header ∧
      next.handlerCalls =
        reader.handlerCalls ++ frames.filterMap (Frame.call handlers undefined) := by
  induction frames generalizing reader with
  | nil => exact ⟨reader, rfl, hwaiting, by simp⟩
  | cons frame frames ih =>
    obtain ⟨middle, hfirst, hmiddle, hcalls⟩ :=
      reads_frame hwaiting frame (frames.flatMap Frame.bytes)
    obtain ⟨next, hrest, hnext, hcalls'⟩ := ih hmiddle
    refine ⟨next, ?_, hnext, ?_⟩
    · rw [List.length_cons, Nat.mul_succ, Nat.add_comm, List.flatMap_cons]
      exact reads_add.mpr ⟨_, hfirst, hrest⟩
    · rw [hcalls', hcalls, List.append_assoc, List.filterMap_cons]
      cases frame.call handlers undefined <;> rfl

/-- Handler calls are never withdrawn. -/
lemma handlerCalls_prefix_of_reads {k : ℕ} {s t : Reader × Bytes}
    {pending : Pending} (hwaiting : s.1.Waiting pending)
    (hreads : reads handlers undefined closed k s = some t) :
    s.1.handlerCalls <+: t.1.handlerCalls := by
  refine (Waiting.invariant (P := fun u => s.1.handlerCalls <+: u.1.handlerCalls) ?_
    hwaiting List.prefix_rfl hreads).2
  intro u v next hnext hinitial hstep
  refine hinitial.trans ?_
  rcases step_cases hnext hstep with ⟨-, _, _, -, -, -, -, hcalls⟩ | ⟨_, _, -, -, -, -, hcalls⟩
  · rw [hcalls]
  · rw [hcalls]
    exact List.prefix_append _ _

/-- Without bytes on the stream no handler is called any more. -/
lemma handlerCalls_eq_of_reads_nil {k : ℕ} {reader : Reader} {t : Reader × Bytes}
    {pending : Pending} (hwaiting : reader.Waiting pending)
    (hreads : reads handlers undefined closed k (reader, []) = some t) :
    t.1.handlerCalls = reader.handlerCalls := by
  refine (Waiting.invariant (P := fun u => u.2 = [] ∧ u.1.handlerCalls = reader.handlerCalls) ?_
    hwaiting ⟨rfl, rfl⟩ hreads).2.2
  rintro ⟨u, rest⟩ v next hnext ⟨rfl, hcalls⟩ hstep
  obtain ⟨hrest, hsame⟩ := step_nil hnext hstep
  exact ⟨hrest, hsame.trans hcalls⟩

/-- A request holds the bytes it was built from, and so does its message unless the constructor has
read outside of them. -/
lemma bytes_of_construct {bytes : Bytes} {header : MessageHeader} {request : Request}
    (hload : MessageHeader.load bytes 0 = .ok header)
    (hrequest : Request.construct undefined header bytes = some request) :
    request.rawBytes = bytes ∧ (Request.ofBytes header bytes ≠ .error .outOfBounds →
      request.decodedData.data = ⟨bytes, header⟩) := by
  unfold Request.construct at hrequest
  split at hrequest
  next built hok =>
    obtain rfl := Option.some.inj hrequest
    obtain ⟨-, ⟨-, -, -, -, rfl⟩ | ⟨-, -, rfl⟩ | ⟨-, -, -, -, rfl⟩ | ⟨-, -, rfl⟩⟩ :=
      Request.cases_of_ofBytes_eq_ok hload hok
    all_goals exact ⟨rfl, fun _ => rfl⟩
  next => cases hrequest
  next hfault =>
    obtain ⟨decodedData, -, rfl⟩ := Option.map_eq_some_iff.mp hrequest
    exact ⟨rfl, fun h => absurd hfault h⟩

/-- **Framing.**  On a stream of frames the connection calls the handlers of exactly the frames that
have a body, that `Request` accepts and that have a handler, in the order of the stream and once
each, and every handler is given the bytes of its own frame. -/
theorem reads_frames (handlers : UInt16 → Bool) (undefined : Bytes → Option DecodedData)
    (closed : Bool) (head : ByteArr sizeofHeader) (frames : List Frame) :
    (∃ reader, reads handlers undefined closed (2 * frames.length)
        (start head, frames.flatMap Frame.bytes) = some (reader, []) ∧
      reader.handlerCalls = frames.filterMap (Frame.call handlers undefined)) ∧
    (∀ k state, reads handlers undefined closed k
        (start head, frames.flatMap Frame.bytes) = some state →
      state.1.handlerCalls <+: frames.filterMap (Frame.call handlers undefined)) ∧
    ∀ frame ∈ frames, ∀ request, frame.call handlers undefined = some request →
      request.rawBytes = frame.bytes ∧
        (Request.ofBytes frame.header frame.bytes ≠ .error .outOfBounds →
          request.decodedData.data = ⟨frame.bytes, frame.header⟩) := by
  obtain ⟨reader, hreads, hwaiting, hcalls⟩ := reads_flatMap (waiting_start head) frames
  refine ⟨⟨reader, hreads, hcalls⟩, ?_, ?_⟩
  · intro k state hstate
    change reader.handlerCalls = frames.filterMap (Frame.call handlers undefined) at hcalls
    rw [← hcalls]
    rcases Nat.le_total k (2 * frames.length) with hk | hk
    · obtain ⟨j, hj⟩ := Nat.exists_eq_add_of_le hk
      rw [hj] at hreads
      obtain ⟨state', hstate', hrest⟩ := reads_add.mp hreads
      obtain rfl := Option.some.inj (hstate.symm.trans hstate')
      obtain ⟨pending, hpending⟩ := (waiting_start head).reads hstate
      exact handlerCalls_prefix_of_reads hpending hrest
    · obtain ⟨j, rfl⟩ := Nat.exists_eq_add_of_le hk
      obtain ⟨state', hstate', hrest⟩ := reads_add.mp hstate
      obtain rfl := Option.some.inj (hreads.symm.trans hstate')
      rw [handlerCalls_eq_of_reads_nil hwaiting hrest]
  · intro frame _ request hrequest
    unfold Frame.call at hrequest
    split_ifs at hrequest
    exact bytes_of_construct frame.load_eq (Option.eq_some_of_filter_eq_some hrequest)

end Frames

/-! ## Headers that announce too little -/

end Reader

/-- The size that `Connection::finish_read` asks for, before `asio::buffer` cuts it to that of the
vector: a difference of two numbers of type `size_t`. -/
def Connection.requestedLength (header : MessageHeader) : ℕ :=
  (2 ^ 64 - sizeofHeader + header.size.toNat) % 2 ^ 64

/-- The difference does not wrap around exactly when it is not negative. -/
lemma Connection.requestedLength_eq_iff (header : MessageHeader) :
    (requestedLength header : ℤ) = (header.size.toNat : ℤ) - sizeofHeader ↔
      sizeofHeader ≤ header.size.toNat := by
  have hsize := header.size.toNat_lt
  unfold requestedLength sizeofHeader
  omega

/-- The size of the buffer is what the connection asks for, as far as the vector goes. -/
lemma Connection.bodyLength_eq (header : MessageHeader) :
    bodyLength header = min (requestedLength header) dataCapacity := rfl

/-- A difference that wraps around is larger than the buffer. -/
lemma Connection.bodyLength_of_lt {header : MessageHeader}
    (hsize : header.size.toNat < sizeofHeader) : bodyLength header = dataCapacity := by
  have hwraps : dataCapacity ≤ requestedLength header := by
    unfold requestedLength dataCapacity
    unfold sizeofHeader at hsize ⊢
    omega
  rw [bodyLength_eq, min_eq_right hwraps]

namespace Reader

/-- The four bytes of a header on the stream. -/
def headOf (header : MessageHeader) : ByteArr sizeofHeader :=
  ⟨header.toRaw.store, MessageHeaderRaw.length_store _⟩

/-- A header, of whatever size, does not cost the frames behind it: the size of its body is computed
without wrapping around, and if it announces less than its own four bytes then its body takes nothing
from the stream. -/
structure KeepsFrames (handlers : UInt16 → Bool) (undefined : Bytes → Option DecodedData)
    (closed : Bool) (header : MessageHeader) (frames : List Frame) : Prop where
  requestedLength_eq : (Connection.requestedLength header : ℤ) =
    (header.size.toNat : ℤ) - sizeofHeader
  frames_kept : header.size.toNat < sizeofHeader →
    ∀ reader : Reader, reader.Waiting .header → ∀ state,
      reads handlers undefined closed 2
        (reader, (headOf header).bytes ++ frames.flatMap Frame.bytes) = some state →
      state.2 = frames.flatMap Frame.bytes

section Malformed

variable {handlers : UInt16 → Bool} {undefined : Bytes → Option DecodedData} {closed : Bool}

lemma load_headOf (header : MessageHeader) :
    MessageHeader.load (headOf header).bytes 0 = .ok header := by
  have hload := MessageHeader.load_store header []
  rwa [List.append_nil] at hload

/-- The body of a header that announces less than four bytes is as large as the buffer. -/
lemma reads_of_size_lt {reader : Reader} (hwaiting : reader.Waiting .header)
    {header : MessageHeader} (hsize : header.size.toNat < sizeofHeader) {stream : Bytes}
    (hstream : Connection.dataCapacity ≤ stream.length) :
    ∃ next, reads handlers undefined closed 2 (reader, (headOf header).bytes ++ stream) =
      some (next, stream.drop Connection.dataCapacity) := by
  obtain ⟨middle, hfirst, -, hmiddle, -⟩ := step_head hwaiting (load_headOf header) stream
  have hread : asyncRead closed (Connection.bodyLength header) stream =
      some (⟨false, stream.take Connection.dataCapacity⟩, stream.drop Connection.dataCapacity) := by
    rw [Connection.bodyLength_of_lt hsize, asyncRead, if_pos hstream]
  obtain ⟨next, hsecond, -⟩ := step_of_bodyRead hmiddle hread
  exact ⟨next, reads_succ.mpr ⟨_, hfirst, reads_succ.mpr ⟨_, hsecond, rfl⟩⟩⟩

/-- **Malformed headers.**  A header keeps the stream in step exactly when it announces at least its
own four bytes. -/
theorem keepsFrames_iff (handlers : UInt16 → Bool) (undefined : Bytes → Option DecodedData)
    (closed : Bool) (header : MessageHeader) (frames : List Frame) :
    KeepsFrames handlers undefined closed header frames ↔ sizeofHeader ≤ header.size.toNat := by
  constructor
  · intro hkeeps
    exact (Connection.requestedLength_eq_iff header).mp hkeeps.requestedLength_eq
  · intro hsize
    exact ⟨(Connection.requestedLength_eq_iff header).mpr hsize,
      fun hlt => absurd hsize (Nat.not_le.mpr hlt)⟩

/-- A frame without a body. -/
def emptyFrame : Frame where
  bytes := [0, 4, 2, 139]
  header := ⟨4, dhtGet⟩
  load_eq := by decide
  size_eq := by decide

lemma length_flatMap_replicate (frame : Frame) (n : ℕ) :
    ((List.replicate n frame).flatMap Frame.bytes).length = n * frame.bytes.length := by
  simp [List.length_flatMap]

/-- A header with size field zero, and frames of four bytes behind it: all of the frames but the last
byte are read as its body. -/
theorem header_takes_frames :
    (∃ next rest, reads (fun _ => true) (fun _ => none) false 2
        (start (headOf ⟨0, dhtGet⟩), (headOf ⟨0, dhtGet⟩).bytes ++
          (List.replicate 16384 emptyFrame).flatMap Frame.bytes) = some (next, rest) ∧
      rest.length = 1) ∧
    ¬ KeepsFrames (fun _ => true) (fun _ => none) false ⟨0, dhtGet⟩
      (List.replicate 16384 emptyFrame) := by
  have hlength := length_flatMap_replicate emptyFrame 16384
  generalize List.replicate 16384 emptyFrame = frames at hlength
  change _ = 65536 at hlength
  have hsize : (⟨0, dhtGet⟩ : MessageHeader).size.toNat < sizeofHeader := by decide
  have hwaiting := waiting_start (headOf ⟨0, dhtGet⟩)
  have hcapacity : Connection.dataCapacity ≤ (frames.flatMap Frame.bytes).length := by
    rw [hlength, Connection.dataCapacity]
    norm_num
  obtain ⟨next, hreads⟩ := reads_of_size_lt hwaiting hsize hcapacity
  have hrest : ((frames.flatMap Frame.bytes).drop Connection.dataCapacity).length = 1 := by
    rw [List.length_drop, hlength, Connection.dataCapacity]
    norm_num
  refine ⟨⟨next, _, hreads, hrest⟩, ?_⟩
  intro hkeeps
  have hkept : (frames.flatMap Frame.bytes).drop Connection.dataCapacity =
      frames.flatMap Frame.bytes := hkeeps.frames_kept hsize _ hwaiting _ hreads
  rw [hkept, hlength] at hrest
  norm_num at hrest

end Malformed

/-! ## The end of the stream -/

/-- A request whose bytes stand on the stream as a whole: a header and as many bytes behind it as a
connection asks for. -/
def Whole (stream : Bytes) (request : Request) : Prop :=
  ∃ first last header, stream = first ++ request.rawBytes ++ last ∧
    MessageHeader.load request.rawBytes 0 = .ok header ∧
    request.rawBytes.length = sizeofHeader + Connection.bodyLength header

/-- What is expected of a connection whose peer closes behind the stream: there is an end to its
reads, and no frame that the stream breaks off is given to a handler. -/
structure StopsAtEnd (handlers : UInt16 → Bool) (undefined : Bytes → Option DecodedData)
    (head : ByteArr sizeofHeader) (stream : Bytes) : Prop where
  stops : ∃ k, reads handlers undefined true k (start head, stream) = none
  whole : ∀ k state, reads handlers undefined true k (start head, stream) = some state →
    ∀ request ∈ state.1.handlerCalls, Whole stream request

section EndOfStream

variable {handlers : UInt16 → Bool} {undefined : Bytes → Option DecodedData}

/-- When the peer has closed, the read that a connection waits for completes. -/
lemma Waiting.exists_step {reader : Reader} {pending : Pending} (hwaiting : reader.Waiting pending)
    (stream : Bytes) : ∃ state, Reader.step handlers undefined true (reader, stream) = some state := by
  rcases pending with _ | header
  · obtain ⟨read, hread⟩ := exists_asyncRead sizeofHeader stream
    obtain ⟨next, -, hstep, -⟩ := step_of_headerRead hwaiting hread
    exact ⟨_, hstep⟩
  · obtain ⟨read, hread⟩ := exists_asyncRead (Connection.bodyLength header) stream
    obtain ⟨next, hstep, -⟩ := step_of_bodyRead hwaiting hread
    exact ⟨_, hstep⟩

/-- There is no last read. -/
lemma Waiting.exists_reads {reader : Reader} {pending : Pending} (hwaiting : reader.Waiting pending)
    (stream : Bytes) (k : ℕ) :
    ∃ state, Reader.reads handlers undefined true k (reader, stream) = some state := by
  induction k generalizing reader pending stream with
  | zero => exact ⟨_, rfl⟩
  | succ k ih =>
    obtain ⟨⟨next, rest⟩, hstep⟩ := hwaiting.exists_step stream
    obtain ⟨pending', hnext⟩ := hwaiting.step hstep
    obtain ⟨state, hreads⟩ := ih hnext rest
    exact ⟨state, reads_succ.mpr ⟨_, hstep, hreads⟩⟩

/-- What was read of the stream: the handlers were given whole frames, and in front of a body that is
still to be read stands its header, unless a read has failed and nothing is left. -/
structure Covered (stream : Bytes) (state : Reader × Bytes) : Prop where
  suffix : ∃ first, stream = first ++ state.2
  whole : ∀ request ∈ state.1.handlerCalls, Whole stream request
  header : ∀ header, state.1.pending = some (.body header) →
    MessageHeader.load state.1.header.bytes 0 = .ok header ∧
      (state.2 = [] ∨ ∃ first, stream = first ++ state.1.header.bytes ++ state.2)

lemma covered_start (head : ByteArr sizeofHeader) (stream : Bytes) :
    Covered stream (start head, stream) where
  suffix := ⟨[], rfl⟩
  whole := by
    intro request hrequest
    cases hrequest
  header := by
    intro header hpending
    cases hpending

/-- A completion gives the handlers whole frames only. -/
lemma Covered.step {stream : Bytes} {s t : Reader × Bytes} {pending : Pending}
    (hcovered : Covered stream s) (hwaiting : s.1.Waiting pending)
    (hstep : Reader.step handlers undefined true s = some t) : Covered stream t := by
  obtain ⟨first, hfirst⟩ := hcovered.suffix
  rcases step_cases hwaiting hstep with
    ⟨-, completion, header, hread, hheader, hload, hnext, hcalls⟩ |
    ⟨header, completion, rfl, hread, hheader, hnext, hcalls⟩
  · obtain ⟨hsplit, hcases⟩ := asyncRead_cases hread
    refine ⟨⟨first ++ completion.bytes, by rw [hfirst, hsplit, List.append_assoc]⟩, ?_, ?_⟩
    · rw [hcalls]
      exact hcovered.whole
    · intro header' hpending
      obtain rfl : header = header' :=
        Pending.body.inj (Option.some.inj (hnext.pending_eq.symm.trans hpending))
      refine ⟨hload, ?_⟩
      rcases hcases with ⟨-, hlength⟩ | ⟨-, -, hrest⟩
      · right
        refine ⟨first, ?_⟩
        rw [hheader, bytes_overwrite _ hlength, hfirst, hsplit, List.append_assoc]
      · exact Or.inl hrest
  · obtain ⟨hsplit, hcases⟩ := asyncRead_cases hread
    obtain ⟨hload, hbehind⟩ := hcovered.header header hwaiting.pending_eq
    refine ⟨⟨first ++ completion.bytes, by rw [hfirst, hsplit, List.append_assoc]⟩, ?_, ?_⟩
    · intro request hrequest
      rw [hcalls, List.mem_append] at hrequest
      rcases hrequest with hold | hnew
      · exact hcovered.whole request hold
      split_ifs at hnew with hok
      · have hcall := Option.eq_some_of_filter_eq_some (Option.mem_toList.mp hnew)
        have hbytes := (bytes_of_construct (MessageHeader.load_append hload _) hcall).1
        -- A call is only made of a read that succeeded, with bytes, so something was left.
        rcases hbehind with hnil | ⟨before, hbefore⟩
        · rw [hnil] at hsplit
          exact absurd (List.nil_eq_append_iff.mp hsplit).1 hok.2
        rcases hcases with ⟨-, hlength⟩ | ⟨herror, -, -⟩
        · refine ⟨before, t.2, header, ?_, ?_, ?_⟩
          · rw [hbytes, hbefore, hsplit]
            simp only [List.append_assoc]
          · rw [hbytes]
            exact MessageHeader.load_append hload _
          · rw [hbytes, List.length_append, s.1.header.size_eq, hlength]
        · rw [herror] at hok
          exact absurd hok.1 (by decide)
      · cases hnew
    · intro header' hpending
      rw [hnext.pending_eq] at hpending
      cases hpending

/-- **The end of the stream.**  When the peer has closed, a connection goes on reading for ever,
wherever the stream ends; the frame that the end of the stream breaks off is not given to a
handler. -/
theorem not_stopsAtEnd (handlers : UInt16 → Bool) (undefined : Bytes → Option DecodedData)
    (head : ByteArr sizeofHeader) (stream : Bytes) :
    ¬ StopsAtEnd handlers undefined head stream ∧
      (∀ k, ∃ state, reads handlers undefined true k (start head, stream) = some state) ∧
      ∀ k state, reads handlers undefined true k (start head, stream) = some state →
        ∀ request ∈ state.1.handlerCalls, Whole stream request := by
  have hreads : ∀ k, ∃ state, reads handlers undefined true k (start head, stream) = some state :=
    (waiting_start head).exists_reads stream
  refine ⟨?_, hreads, ?_⟩
  · rintro ⟨⟨k, hk⟩, -⟩
    obtain ⟨state, hstate⟩ := hreads k
    rw [hk] at hstate
    cases hstate
  · intro k state hstate
    exact ((waiting_start head).invariant (fun _ _ _ hnext hcovered => hcovered.step hnext)
      (covered_start head stream) hstate).2.whole

/-- A stream that ends inside a header. -/
theorem broken_header_not_stopsAtEnd :
    ¬ StopsAtEnd (fun _ => true) (fun _ => none) (headOf ⟨0, dhtGet⟩) [0, 40] := by
  rintro ⟨⟨k, hk⟩, -⟩
  obtain ⟨state, hstate⟩ := (waiting_start (headOf ⟨0, dhtGet⟩)).exists_reads [0, 40] k
  rw [hk] at hstate
  cases hstate

end EndOfStream

end Reader

end Api

end ChordPlusPlus
