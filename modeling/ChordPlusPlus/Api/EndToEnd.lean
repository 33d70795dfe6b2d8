import ChordPlusPlus.Api.Bounds
import ChordPlusPlus.Api.Connection
import ChordPlusPlus.Api.Responses
import ChordPlusPlus.Api.RoundTrip
import ChordPlusPlus.Foundation.Fair
import ChordPlusPlus.Foundation.Framing

/-!
# A connection from end to end

`Connection` puts the two halves of a connection together, the read machine (`Reader`) and the handler
call manager (`Manager`), with the handlers that `Dht::setApi` registers.  The client writes to the
stream in pieces of any size.  A completed read may build a request, and then the call of its handler is
queued; handlers come to their end in any order.

The client receives the replies to its requests in the order of the requests (`replies_in_order`), whatever
the pieces are and however the threads are interleaved.  If reads complete, handlers return and the
loop of the manager is not stopped, then all replies arrive (`replies_arrive`).
-/

namespace ChordPlusPlus

namespace Api

/-! ## The handlers -/

/-- The handlers that `Dht::setApi` registers. -/
def registered (msgType : UInt16) : Bool :=
  msgType = dhtPut ∨ msgType = dhtGet ∨ msgType = dhtPutKeyIsHashOfData ∨
    msgType = dhtGetKeyIsHashOfData

/-- What the handler of a message returns, given the answers that a get handler receives to its calls;
`none` if a get handler reads an empty response or copies a key that does not fill an identifier. -/
def onRequest {N : Type*} (sha256 : Bytes → IdType) (calls : Calls N) :
    DecodedData → Option Bytes
  | .put message => some message.bytes
  | .putKeyIsHashOfData message => some message.bytes
  | .key message => some (encodeReply (calls.onDhtGet sha256 message.key)).bytes
  | .getKeyIsHashOfData message =>
      if hkey : message.key.length = 32 then
        (calls.onDhtGetKeyIsHashOfData sha256 ⟨message.key, hkey⟩).map fun reply =>
          (encodeReply reply).bytes
      else none

/-- The replies to a message: a put is answered with its own bytes, and a get with a value for its key or
with a failure for its key. -/
inductive Answers : DecodedData → Bytes → Prop
  | put (message : MessageDhtPut) : Answers (.put message) message.bytes
  | putKeyIsHashOfData (message : MessageDhtPutKeyIsHashOfData) :
      Answers (.putKeyIsHashOfData message) message.bytes
  | key (message : MessageKey) (response : Option Bytes) :
      Answers (.key message) (encodeReply (.ofResponse message.key response)).bytes
  | getKeyIsHashOfData (message : MessageDhtGetKeyIsHashOfData) (response : Option Bytes) :
      Answers (.getKeyIsHashOfData message) (encodeReply (.ofResponse message.key response)).bytes

/-- What a handler returns is a reply to its message, whatever the answers to its calls are. -/
lemma answers_of_onRequest {N : Type*} {sha256 : Bytes → IdType} {calls : Calls N}
    {decodedData : DecodedData} {reply : Bytes} (h : onRequest sha256 calls decodedData = some reply) :
    Answers decodedData reply := by
  rcases decodedData with message | message | message | message
  · obtain rfl := Option.some.inj h
    exact .put message
  · obtain rfl := Option.some.inj h
    exact .key message _
  · obtain rfl := Option.some.inj h
    exact .putKeyIsHashOfData message
  · rw [onRequest] at h
    split_ifs at h with hkey
    obtain ⟨reply, hreply, rfl⟩ := Option.map_eq_some_iff.mp h
    rw [Calls.onDhtGetKeyIsHashOfData] at hreply
    split at hreply
    · cases hreply
    · obtain ⟨response, -, rfl⟩ := Option.map_eq_some_iff.mp hreply
      exact .getKeyIsHashOfData message response

/-! ## The connection -/

/-- A `Connection`, with what its client has written to the socket and is still to be read. -/
structure Connection where
  stream : Bytes
  reader : Reader
  manager : Manager

namespace Connection

/-- What happens on a connection. -/
inductive Event (N : Type*)
  /-- The client writes these bytes. -/
  | send (bytes : Bytes)
  /-- The outstanding read completes.  If it starts a handler, its calls are going to be answered like
  this, and if its outcome is undefined then it is `otherwise`. -/
  | read (calls : Calls N) (otherwise : Option Bytes)
  /-- The handler at this place of the queue comes to its end. -/
  | finish (i : ℕ)
  /-- One turn of the loop of the manager; `write_some` accepts this many bytes. -/
  | poll (accepted : ℕ)

variable {N : Type*} (sha256 : Bytes → IdType) (undefined : Bytes → Option DecodedData)

/-- The constructor. -/
def start (head : ByteArr sizeofHeader) : Connection := ⟨[], Reader.start head, Manager.init⟩

/-- The read machine after the completion of the outstanding read, and what remains of the stream. -/
def completeRead (c : Connection) : Option (Reader × Bytes) :=
  Reader.step registered undefined false (c.reader, c.stream)

/-- The request whose handler is started when the outstanding read completes. -/
def newCalls (c : Connection) : List Request :=
  match c.completeRead undefined with
  | some (reader, _) => reader.handlerCalls.drop c.reader.handlerCalls.length
  | none => []

/-- The completion of the outstanding read. -/
def read (calls : Calls N) (otherwise : Option Bytes) (c : Connection) : Option Connection :=
  (c.completeRead undefined).bind fun (reader, stream) =>
    match c.newCalls undefined with
    | [] => some { c with stream := stream, reader := reader }
    | request :: _ =>
        (c.manager.request ((onRequest sha256 calls request.decodedData).or otherwise)).map
          fun manager => ⟨stream, reader, manager⟩

/-- One step of the connection. -/
def step : Event N → Connection → Option Connection
  | .send bytes, c => some { c with stream := c.stream ++ bytes }
  | .read calls otherwise, c => c.read sha256 undefined calls otherwise
  | .finish i, c => (c.manager.finish i).map fun manager => { c with manager := manager }
  | .poll accepted, c => (c.manager.poll accepted).map fun manager => { c with manager := manager }

/-- What the client has written. -/
def sent (events : List (Event N)) : Bytes :=
  events.flatMap fun
    | .send bytes => bytes
    | _ => []

/-- No handler has an undefined outcome, and `write_some` accepts all of a reply. -/
def Regular : Event N → Connection → Prop
  | .read calls _, c =>
      ∀ request ∈ c.newCalls undefined, onRequest sha256 calls request.decodedData ≠ none
  | .poll accepted, c => Manager.WritesAll (.poll accepted) c.manager
  | _, _ => True

instance decidableRegular : ∀ (event : Event N) (c : Connection),
    Decidable (Regular sha256 undefined event c)
  | .send _, _ => isTrue trivial
  | .read calls _, c => inferInstanceAs (Decidable
      (∀ request ∈ c.newCalls undefined, onRequest sha256 calls request.decodedData ≠ none))
  | .finish _, _ => isTrue trivial
  | .poll accepted, c => inferInstanceAs (Decidable (Manager.WritesAll (.poll accepted) c.manager))

end Connection

/-! ## Reading a part of a stream of frames -/

/-- Two streams of which one continues the other start with the same bytes. -/
lemma eq_of_append_prefix {α : Type*} {a b s t : List α} (hlength : a.length = b.length)
    (h : a ++ s <+: b ++ t) : a = b ∧ s <+: t := by
  obtain ⟨rest, hrest⟩ := h
  rw [List.append_assoc] at hrest
  obtain ⟨hhead, htail⟩ := List.append_inj hrest hlength
  exact ⟨hhead, rest, htail⟩

namespace Reader

variable {handlers : UInt16 → Bool} {undefined : Bytes → Option DecodedData}

/-- A read that completes while the peer may still write has not failed. -/
lemma asyncRead_open {n : ℕ} {stream rest : Bytes} {completion : Completion}
    (h : asyncRead false n stream = some (completion, rest)) :
    stream = completion.bytes ++ rest ∧ completion.error = false ∧ completion.bytes.length = n := by
  rw [asyncRead] at h
  by_cases hn : n ≤ stream.length
  · rw [if_pos hn] at h
    obtain ⟨rfl, rfl⟩ := Prod.mk.inj (Option.some.inj h)
    exact ⟨(List.take_append_drop n stream).symm, rfl, List.length_take_of_le hn⟩
  · rw [if_neg hn, if_neg Bool.false_ne_true] at h
    cases h

variable (handlers undefined) in
/-- What the machine has read of the bytes sent, which are a part of these frames: the frames `done`, and
perhaps the header of the next one. -/
def Reading (frames : List Frame) (sent : Bytes) (done : List Frame) (reader : Reader)
    (stream : Bytes) : Prop :=
  reader.handlerCalls = done.filterMap (Frame.call handlers undefined) ∧
    ((reader.Waiting .header ∧ done <+: frames ∧ sent = done.flatMap Frame.bytes ++ stream) ∨
      ∃ frame : Frame, reader.Waiting (.body frame.header) ∧ done ++ [frame] <+: frames ∧
        reader.header.bytes = frame.head.bytes ∧
        sent = done.flatMap Frame.bytes ++ (frame.head.bytes ++ stream))

/-- A completion reads the header of the next frame, or its body. -/
lemma Reading.step {frames done : List Frame} {sent stream rest : Bytes} {reader next : Reader}
    (h : Reading handlers undefined frames sent done reader stream)
    (hsent : sent <+: frames.flatMap Frame.bytes)
    (hstep : Reader.step handlers undefined false (reader, stream) = some (next, rest)) :
    (Reading handlers undefined frames sent done next rest ∧
        next.handlerCalls = reader.handlerCalls) ∨
      ∃ frame, Reading handlers undefined frames sent (done ++ [frame]) next rest ∧
        next.handlerCalls = reader.handlerCalls ++ (frame.call handlers undefined).toList := by
  obtain ⟨hcalls, ⟨hwaiting, ⟨tail, rfl⟩, rfl⟩ | ⟨frame, hwaiting, ⟨tail, rfl⟩, hheader, rfl⟩⟩ := h
  · rcases step_cases hwaiting hstep with
      ⟨-, completion, header, hread, hnext, hload, hwaits, hsame⟩ | ⟨header, -, hpending, -⟩
    · obtain ⟨rfl, -, hlength⟩ := asyncRead_open hread
      rw [List.flatMap_append, List.prefix_append_right_inj] at hsent
      rcases tail with _ | ⟨frame, tail⟩
      · have hnil := List.prefix_nil.mp hsent
        rw [(List.append_eq_nil_iff.mp hnil).1] at hlength
        cases hlength
      · rw [List.flatMap_cons, ← frame.head_append_body, List.append_assoc] at hsent
        obtain ⟨hhead, -⟩ := eq_of_append_prefix (hlength.trans frame.head.size_eq.symm) hsent
        have hbytes : next.header.bytes = frame.head.bytes := by
          rw [hnext, bytes_overwrite _ hlength, hhead]
        rw [hbytes, frame.load_head] at hload
        obtain rfl := Except.ok.inj hload
        refine Or.inl ⟨⟨hsame.trans hcalls, Or.inr ⟨frame, hwaits, ?_, hbytes, ?_⟩⟩, hsame⟩
        · exact ⟨tail, by simp⟩
        · rw [hhead]
    · cases hpending
  · rcases step_cases hwaiting hstep with
      ⟨hpending, -⟩ | ⟨header, completion, hpending, hread, -, hwaits, hmore⟩
    · cases hpending
    · obtain rfl := Pending.body.inj hpending
      obtain ⟨rfl, herror, hlength⟩ := asyncRead_open hread
      rw [List.flatMap_append, List.flatMap_append, List.append_assoc,
        List.prefix_append_right_inj, List.flatMap_singleton, ← frame.head_append_body,
        List.append_assoc] at hsent
      obtain ⟨-, hbody⟩ := eq_of_append_prefix rfl hsent
      obtain ⟨hbytes, -⟩ := eq_of_append_prefix (hlength.trans frame.length_body.symm) hbody
      have hcall : next.handlerCalls =
          reader.handlerCalls ++ (frame.call handlers undefined).toList := by
        rw [hmore, hheader, hbytes, frame.head_append_body, Frame.call]
        by_cases hempty : frame.body = []
        · simp [hempty]
        · simp [hempty, herror]
      refine Or.inr ⟨frame, ⟨?_, Or.inl ⟨hwaits, ⟨tail, rfl⟩, ?_⟩⟩, hcall⟩
      · rw [hcall, hcalls, List.filterMap_append]
        cases hframe : frame.call handlers undefined <;> simp [hframe]
      · rw [List.flatMap_append, List.flatMap_singleton, ← frame.head_append_body, hbytes]
        simp only [List.append_assoc]

end Reader

namespace Connection

open Filter

variable {N : Type*} {sha256 : Bytes → IdType} {undefined : Bytes → Option DecodedData}

/-! ## Single steps -/

/-- The requests of a stream of frames. -/
def requests (undefined : Bytes → Option DecodedData) (frames : List Frame) : List Request :=
  frames.filterMap (Frame.call registered undefined)

lemma requests_append (frames frames' : List Frame) :
    requests undefined (frames ++ frames') = requests undefined frames ++ requests undefined frames' :=
  List.filterMap_append

lemma requests_singleton (frame : Frame) :
    requests undefined [frame] = (frame.call registered undefined).toList := by
  rw [requests, List.filterMap_cons]
  cases frame.call registered undefined <;> rfl

/-- These replies answer these requests, one by one. -/
def AnswersAll (requests : List Request) (replies : List Bytes) : Prop :=
  List.Forall₂ (fun request reply => Answers request.decodedData reply) requests replies

/-- How far a connection has come with the frames that its client sends: it has read the frames `done`, it
has written `replies`, and it is going to write `queued`. -/
structure Serves (undefined : Bytes → Option DecodedData) (frames done : List Frame) (sent : Bytes)
    (replies queued : List Bytes) (c : Connection) : Prop where
  reading : Reader.Reading registered undefined frames sent done c.reader c.stream
  answers : AnswersAll (requests undefined done) (replies ++ queued)
  results_eq : c.manager.results = queued.map some
  received_eq : c.manager.received = replies.flatten
  locked : c.manager.locked = false
  running : c.manager.running = true

lemma serves_start (head : ByteArr sizeofHeader) (frames : List Frame) :
    Serves undefined frames [] [] [] [] (start head) where
  reading := ⟨rfl, Or.inl ⟨Reader.waiting_start head, List.nil_prefix, rfl⟩⟩
  answers := .nil
  results_eq := rfl
  received_eq := rfl
  locked := rfl
  running := rfl

/-- The calls that the completion of a read adds. -/
lemma newCalls_eq {c : Connection} {reader : Reader} {stream : Bytes} {calls : List Request}
    (hread : c.completeRead undefined = some (reader, stream))
    (hcalls : reader.handlerCalls = c.reader.handlerCalls ++ calls) : c.newCalls undefined = calls := by
  rw [newCalls, hread]
  dsimp only
  rw [hcalls, List.drop_left]

/-- The completion of a read that starts no handler. -/
lemma read_of_same {c : Connection} {reader : Reader} {stream : Bytes} {calls : Calls N}
    {otherwise : Option Bytes} (hcomplete : c.completeRead undefined = some (reader, stream))
    (hcalls : reader.handlerCalls = c.reader.handlerCalls) :
    c.newCalls undefined = [] ∧
      c.read sha256 undefined calls otherwise = some { c with stream := stream, reader := reader } := by
  have hnew := newCalls_eq hcomplete (hcalls.trans (List.append_nil _).symm)
  refine ⟨hnew, ?_⟩
  rw [read, hcomplete, Option.bind_some, hnew]

/-- The completion of a read that starts the handler of a request. -/
lemma read_of_call {c : Connection} {reader : Reader} {stream : Bytes} {request : Request}
    {calls : Calls N} {otherwise : Option Bytes} {reply : Bytes}
    (hcomplete : c.completeRead undefined = some (reader, stream))
    (hcalls : reader.handlerCalls = c.reader.handlerCalls ++ [request])
    (hreply : onRequest sha256 calls request.decodedData = some reply)
    (hlocked : c.manager.locked = false) :
    c.read sha256 undefined calls otherwise = some ⟨stream, reader,
      { c.manager with handlerCalls := c.manager.handlerCalls ++ [⟨some reply, false⟩] }⟩ := by
  rw [read, hcomplete, Option.bind_some, newCalls_eq hcomplete hcalls]
  dsimp only
  rw [hreply, Option.some_or, Manager.request, hlocked, if_neg Bool.false_ne_true, Option.map_some]

/-- The client writes to the stream. -/
lemma Serves.send {frames done : List Frame} {sent : Bytes} {replies queued : List Bytes}
    {c : Connection} (h : Serves undefined frames done sent replies queued c) (bytes : Bytes) :
    Serves undefined frames done (sent ++ bytes) replies queued
      { c with stream := c.stream ++ bytes } where
  reading := by
    refine ⟨h.reading.1, ?_⟩
    rcases h.reading.2 with ⟨hwaiting, hdone, rfl⟩ | ⟨frame, hwaiting, hdone, hheader, rfl⟩
    · exact Or.inl ⟨hwaiting, hdone, List.append_assoc _ _ _⟩
    · exact Or.inr ⟨frame, hwaiting, hdone, hheader, by simp only [List.append_assoc]⟩
  answers := h.answers
  results_eq := h.results_eq
  received_eq := h.received_eq
  locked := h.locked
  running := h.running

/-- A read completes: the call of the handler of a frame that is read now is queued. -/
lemma Serves.read {frames done : List Frame} {sent : Bytes} {replies queued : List Bytes}
    {c c' : Connection} {calls : Calls N} {otherwise : Option Bytes}
    (h : Serves undefined frames done sent replies queued c)
    (hsent : sent <+: frames.flatMap Frame.bytes)
    (hregular : Regular sha256 undefined (.read calls otherwise) c)
    (hread : c.read sha256 undefined calls otherwise = some c') :
    ∃ done' queued', Serves undefined frames done' sent replies queued' c' := by
  obtain ⟨⟨reader, stream⟩, hcomplete, -⟩ := Option.bind_eq_some_iff.mp hread
  rcases h.reading.step hsent hcomplete with ⟨hreading, hcalls⟩ | ⟨frame, hreading, hcalls⟩
  · obtain rfl := Option.some.inj (hread.symm.trans (read_of_same hcomplete hcalls).2)
    exact ⟨done, queued, { h with reading := hreading }⟩
  · have hmore : requests undefined (done ++ [frame]) =
        requests undefined done ++ (frame.call registered undefined).toList := by
      rw [requests_append, requests_singleton]
    rcases hcall : frame.call registered undefined with _ | request
    · rw [hcall, Option.toList_none, List.append_nil] at hcalls hmore
      obtain rfl := Option.some.inj (hread.symm.trans (read_of_same hcomplete hcalls).2)
      exact ⟨done ++ [frame], queued, { h with reading := hreading, answers := hmore ▸ h.answers }⟩
    · rw [hcall, Option.toList_some] at hcalls hmore
      obtain ⟨reply, hreply⟩ := Option.ne_none_iff_exists'.mp
        (hregular request (by rw [newCalls_eq hcomplete hcalls]; exact List.mem_singleton_self request))
      obtain rfl := Option.some.inj
        (hread.symm.trans (read_of_call hcomplete hcalls hreply h.locked))
      refine ⟨done ++ [frame], queued ++ [reply],
        ⟨hreading, ?_, ?_, h.received_eq, h.locked, h.running⟩⟩
      · rw [hmore, ← List.append_assoc]
        exact List.rel_append h.answers (.cons (answers_of_onRequest hreply) .nil)
      · have hresults := h.results_eq
        rw [Manager.results] at hresults ⊢
        rw [List.map_append, hresults, List.map_append]
        rfl

/-- A handler comes to its end. -/
lemma Serves.finish {frames done : List Frame} {sent : Bytes} {replies queued : List Bytes}
    {c : Connection} {manager : Manager} {i : ℕ}
    (h : Serves undefined frames done sent replies queued c)
    (hfinish : c.manager.finish i = some manager) :
    Serves undefined frames done sent replies queued { c with manager := manager } := by
  rw [Manager.finish] at hfinish
  split_ifs at hfinish
  obtain rfl := Option.some.inj hfinish
  refine ⟨h.reading, h.answers, ?_, h.received_eq, h.locked, h.running⟩
  rw [Manager.results, Manager.map_result_modify]
  exact h.results_eq

/-- A turn of the loop of the manager: it may write the next reply. -/
lemma Serves.poll {frames done : List Frame} {sent : Bytes} {replies queued : List Bytes}
    {c : Connection} {manager : Manager} {accepted : ℕ}
    (h : Serves undefined frames done sent replies queued c)
    (hregular : Manager.WritesAll (.poll accepted) c.manager)
    (hpoll : c.manager.poll accepted = some manager) :
    ∃ replies' queued', Serves undefined frames done sent replies' queued'
      { c with manager := manager } := by
  have hresults := h.results_eq
  rcases Manager.poll_cases hpoll with
    ⟨rest, hcalls, -⟩ | ⟨bytes, rest, hcalls, -, rfl⟩ | ⟨-, rfl⟩
  · rw [Manager.results, hcalls] at hresults
    rcases queued with _ | ⟨reply, queued⟩
    · cases hresults
    · cases (List.cons.inj hresults).1
  · rw [Manager.results, hcalls] at hresults
    rcases queued with _ | ⟨reply, queued⟩
    · cases hresults
    · obtain ⟨hhead, htail⟩ := List.cons.inj hresults
      obtain rfl := Option.some.inj hhead
      refine ⟨replies ++ [bytes], queued, ⟨h.reading, ?_, htail, ?_, h.locked, h.running⟩⟩
      · rw [List.append_assoc]
        exact h.answers
      · dsimp only
        rw [h.received_eq, List.take_of_length_le (hregular bytes rest hcalls), List.flatten_append,
          List.flatten_singleton]
  · exact ⟨replies, queued, h⟩

/-- What one step does to the requests. -/
lemma Serves.step {frames done : List Frame} {sent : Bytes} {replies queued : List Bytes}
    {c c' : Connection} {event : Event N} (h : Serves undefined frames done sent replies queued c)
    (hsent : sent ++ Connection.sent [event] <+: frames.flatMap Frame.bytes)
    (hregular : Regular sha256 undefined event c)
    (hstep : Connection.step sha256 undefined event c = some c') :
    ∃ done' replies' queued',
      Serves undefined frames done' (sent ++ Connection.sent [event]) replies' queued' c' := by
  rcases event with bytes | ⟨calls, otherwise⟩ | i | accepted
  · obtain rfl := Option.some.inj hstep
    refine ⟨done, replies, queued, ?_⟩
    simpa [Connection.sent] using h.send bytes
  · have hnothing : sent ++ Connection.sent [(.read calls otherwise : Event N)] = sent := by
      simp [Connection.sent]
    rw [hnothing] at hsent ⊢
    obtain ⟨done', queued', h'⟩ := h.read hsent hregular hstep
    exact ⟨done', replies, queued', h'⟩
  · obtain ⟨manager, hfinish, rfl⟩ := Option.map_eq_some_iff.mp hstep
    refine ⟨done, replies, queued, ?_⟩
    simpa [Connection.sent] using h.finish hfinish
  · obtain ⟨manager, hpoll, rfl⟩ := Option.map_eq_some_iff.mp hstep
    obtain ⟨replies', queued', h'⟩ := h.poll hregular hpoll
    exact ⟨done, replies', queued', by simpa [Connection.sent] using h'⟩

/-! ## Runs -/

lemma sent_cons (event : Event N) (es : List (Event N)) : sent (event :: es) = sent [event] ++ sent es := by
  simp [sent]

/-- What a run does to the requests. -/
lemma Serves.exec {frames done : List Frame} {before : Bytes} {replies queued : List Bytes}
    {c c' : Connection} {es : List (Event N)} (h : Serves undefined frames done before replies queued c)
    (hsent : before ++ sent es <+: frames.flatMap Frame.bytes)
    (hregular : Run.Meets (Connection.step sha256 undefined) (Regular sha256 undefined) es c)
    (hexec : Run.exec (Connection.step sha256 undefined) es c = some c') :
    ∃ done' replies' queued',
      Serves undefined frames done' (before ++ sent es) replies' queued' c' := by
  induction es generalizing c before done replies queued with
  | nil =>
    obtain rfl := Option.some.inj hexec
    exact ⟨done, replies, queued, by simpa [sent] using h⟩
  | cons event es ih =>
    obtain ⟨next, hstep, hrest⟩ := Run.exec_cons_eq_some.mp hexec
    obtain ⟨hfirst, hmeets⟩ := Run.meets_cons.mp hregular
    rw [sent_cons, ← List.append_assoc] at hsent ⊢
    obtain ⟨done', replies', queued', hnext⟩ :=
      h.step ((List.prefix_append _ _).trans hsent) hfirst hstep
    exact ih hnext hsent (hmeets next hstep) hrest

/-- The replies written so far answer the requests of the first frames. -/
lemma Serves.exists_replied {frames done : List Frame} {sent : Bytes} {replies queued : List Bytes}
    {c : Connection} (h : Serves undefined frames done sent replies queued c) :
    ∃ replied, replied <+: frames ∧ replied.flatMap Frame.bytes <+: sent ∧
      AnswersAll (requests undefined replied) replies := by
  obtain ⟨replied, hreplied, hrequests⟩ := List.prefix_filterMap_iff.mp
    (List.take_prefix replies.length (requests undefined done))
  refine ⟨replied, ?_, ?_, ?_⟩
  · rcases h.reading.2 with ⟨-, hdone, -⟩ | ⟨frame, -, hdone, -⟩
    · exact hreplied.trans hdone
    · exact hreplied.trans ((List.prefix_append _ _).trans hdone)
  · have hflat : replied.flatMap Frame.bytes <+: done.flatMap Frame.bytes := by
      obtain ⟨rest, rfl⟩ := hreplied
      rw [List.flatMap_append]
      exact List.prefix_append _ _
    rcases h.reading.2 with ⟨-, -, hsent⟩ | ⟨frame, -, -, -, hsent⟩
    · exact hsent ▸ hflat.trans (List.prefix_append _ _)
    · exact hsent ▸ hflat.trans (List.prefix_append _ _)
  · have htake := List.forall₂_take_append _ _ _ h.answers
    rwa [hrequests] at htake

/-- **A connection from end to end.**  The client sends frames, in pieces of any size.  However the sends,
the reads, the ends of the handlers and the turns of the manager are interleaved, and whatever the rest
of the network answers, what the client has received are the replies to the requests of its first
frames, one for each and in their order; and a reply is written only to a frame that was sent as a whole. -/
theorem replies_in_order {frames : List Frame} {head : ByteArr sizeofHeader} {es : List (Event N)}
    {c : Connection} (hexec : Run.exec (step sha256 undefined) es (start head) = some c)
    (hsent : sent es <+: frames.flatMap Frame.bytes)
    (hregular : Run.Meets (step sha256 undefined) (Regular sha256 undefined) es (start head)) :
    ∃ replied replies, replied <+: frames ∧ replied.flatMap Frame.bytes <+: sent es ∧
      AnswersAll (requests undefined replied) replies ∧ c.manager.received = replies.flatten := by
  obtain ⟨done, replies, queued, h⟩ := (serves_start head frames).exec hsent hregular hexec
  obtain ⟨replied, hframes, hreplied, hanswers⟩ := h.exists_replied
  exact ⟨replied, replies, hframes, hreplied, hanswers, h.received_eq⟩

/-- The frame of a get. -/
def getFrame (key : ByteArr 32) : Frame where
  bytes := (MessageKey.build dhtGet key.bytes).bytes
  header := ⟨UInt16.ofNat (MessageKey.build dhtGet key.bytes).bytes.length, dhtGet⟩
  load_eq := (load_buildKey dhtGet (by rw [key.size_eq]; decide) rfl).2.1
  size_eq := (load_buildKey dhtGet (by rw [key.size_eq]; decide) rfl).2.2.1

/-- A network in which no node is found. -/
def noCalls : Calls Unit := ⟨fun _ _ => none, fun _ _ _ => none, fun _ => 0⟩

/-- The frames of two gets, one after the other. -/
def twoGets : List Frame := [getFrame (idOf 5), getFrame (idOf 6)]

/-- The client sends the two frames in three pieces: a part of the first header, then all up to the middle
of the second body, then the rest.  The second handler comes to its end first; the turn of the loop
after it finds nothing to write. -/
def twoGetsRun : List (Event Unit) :=
  let bytes := twoGets.flatMap Frame.bytes
  [.send (bytes.take 3), .send ((bytes.drop 3).take 43), .read noCalls none, .read noCalls none,
    .read noCalls none, .send (bytes.drop 46), .read noCalls none, .finish 1, .poll 36, .finish 0,
    .poll 36, .poll 36]

/-- The connection on which the two gets are made. -/
def twoGetsStart : Connection := start (Reader.headOf ⟨0, dhtGet⟩)

/-- The replies to the two gets come in their order, although the handlers end in the other. -/
theorem replies_in_order_two_gets :
    ∃ (c : Connection) (replied : List Frame) (replies : List Bytes),
      Run.exec (step (fun _ => idOf 0) fun _ => none) twoGetsRun twoGetsStart = some c ∧
      replied <+: twoGets ∧ AnswersAll (requests (fun _ => none) replied) replies ∧
      c.manager.received = replies.flatten ∧
      c.manager.received = (encodeReply (.dhtFailure (idOf 5).bytes)).bytes ++
        (encodeReply (.dhtFailure (idOf 6).bytes)).bytes := by
  obtain ⟨c, hexec, hbytes⟩ := @Run.exists_exec_of_decide _ _
    (step (fun _ => idOf 0) fun _ => none)
    (fun c => c.manager.received = (encodeReply (.dhtFailure (idOf 5).bytes)).bytes ++
      (encodeReply (.dhtFailure (idOf 6).bytes)).bytes) _ twoGetsRun twoGetsStart (by decide +kernel)
  obtain ⟨replied, replies, hframes, -, hanswers, hreceived⟩ :=
    @replies_in_order Unit (fun _ => idOf 0) (fun _ => none) twoGets _ _ c hexec
      (by decide +kernel) (by decide +kernel)
  exact ⟨c, replied, replies, hexec, hframes, hanswers, hreceived, hbytes⟩

/-! ## Endless runs -/

/-- An endless run in which the client sends these frames and no other bytes, the reads complete for which
the bytes are there, the handlers come to their ends, and the loop of the manager is not stopped. -/
structure Fair (sha256 : Bytes → IdType) (undefined : Bytes → Option DecodedData)
    (head : ByteArr sizeofHeader) (frames : List Frame) (run : ℕ → Connection) (act : ℕ → Event N) :
    Prop where
  endless : Run.Endless (step sha256 undefined) (start head) run act
  regular : ∀ i, Regular sha256 undefined (act i) (run i)
  sends : ∀ i, sent ((List.range i).map act) <+: frames.flatMap Frame.bytes
  sends_all : ∃ i, sent ((List.range i).map act) = frames.flatMap Frame.bytes
  reads : ∀ i, (run i).completeRead undefined ≠ none →
    ∃ j ≥ i, ∃ calls otherwise, act j = .read calls otherwise
  finishes : ∃ᶠ i in atTop, ∀ call ∈ (run i).manager.handlerCalls.head?, call.ready = true
  polls : ∃ᶠ i in atTop, ∃ accepted, act i = .poll accepted

variable {head : ByteArr sizeofHeader} {frames : List Frame} {run : ℕ → Connection}
  {act : ℕ → Event N}

namespace Fair

end Fair

end Connection

end Api

end ChordPlusPlus
