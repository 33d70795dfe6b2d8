import ChordPlusPlus.Dht.NodeInformation
import ChordPlusPlus.Foundation.Run
import Mathlib.Data.List.ReduceOption

/-!
# The responses of a connection

`Connection::finish_read` starts the handler of a request in a thread of its own and puts the future
of its response at the end of `m_handlerCalls`.  The handler call manager of the connection, a loop in
one more thread, looks at the first future only: when it is ready, the response is taken, the
future is removed and the response is given to `write_some`, once.

`Manager` is the state that the two share, and a step is a request, a handler that returns or throws,
or one turn of the loop, in any order.  What `write_some` accepts of its buffer is chosen by the step.
The socket stays open.

The responses are written in the order of the requests, whatever the order in which the handlers
finish, but a client receives them in full exactly when each `write_some` accepts all of its buffer
(`delivers_iff`).  A handler that throws ends the loop between the lock and the unlock
of the mutex, so the other requests are not affected only if there is no such handler
(`isolated_iff`).
-/

namespace ChordPlusPlus

namespace Api

/-- The future of a handler call. -/
structure HandlerCall where
  /-- What the handler returns, or none if it throws. -/
  result : Option Bytes
  ready : Bool
deriving DecidableEq

/-- What the handler call manager and the reading thread of a connection share, and what has become
of the responses. -/
structure Manager where
  /-- `m_handlerCalls`. -/
  handlerCalls : List HandlerCall
  /-- Whether `m_handlerCallMutex` is left locked. -/
  locked : Bool
  /-- Whether the loop has not been left. -/
  running : Bool
  /-- The buffers given to `write_some`. -/
  written : List Bytes
  /-- The bytes that `write_some` has accepted. -/
  received : Bytes
deriving DecidableEq

/-- What happens on a connection. -/
inductive Event
  /-- `finish_read` queues the call of a handler that is going to return or to throw. -/
  | request (result : Option Bytes)
  /-- The handler at this place of the queue comes to its end. -/
  | finish (i : ℕ)
  /-- One turn of the loop; `write_some`, if it is called, accepts this many bytes. -/
  | poll (accepted : ℕ)
deriving DecidableEq

namespace Manager

/-- A new connection. -/
def init : Manager where
  handlerCalls := []
  locked := false
  running := true
  written := []
  received := []

/-- The end of `finish_read`.  The thread waits for the mutex. -/
def request (manager : Manager) (result : Option Bytes) : Option Manager :=
  if manager.locked then none
  else some { manager with handlerCalls := manager.handlerCalls ++ [⟨result, false⟩] }

/-- A handler returns or throws. -/
def finish (manager : Manager) (i : ℕ) : Option Manager :=
  if i < manager.handlerCalls.length then
    some { manager with
      handlerCalls := manager.handlerCalls.modify i fun call => { call with ready := true } }
  else none

/-- `m_socket.write_some`, which accepts at least one byte. -/
def writeSome (manager : Manager) (bytes : Bytes) (accepted : ℕ) : Option Manager :=
  if 1 ≤ accepted ∧ accepted ≤ bytes.length then
    some { manager with
      written := manager.written ++ [bytes]
      received := manager.received ++ bytes.take accepted }
  else none

/-- One turn of the loop of `m_handlerCallManager`. -/
def poll (manager : Manager) (accepted : ℕ) : Option Manager :=
  if manager.running then
    match manager.handlerCalls with
    | ⟨result, true⟩ :: rest =>
      if manager.locked then none
      else
        match result with
        -- `get` throws what the handler threw: the future is not removed, the mutex is not unlocked,
        -- and the exception leaves the loop.
        | none => some { manager with locked := true, running := false }
        | some bytes =>
          let manager := { manager with handlerCalls := rest }
          if bytes = [] then some manager else manager.writeSome bytes accepted
    | _ => some manager
  else none

/-- One step of the connection. -/
def step : Event → Manager → Option Manager
  | .request result, manager => manager.request result
  | .finish i, manager => manager.finish i
  | .poll accepted, manager => manager.poll accepted

/-- The outcomes of the handlers, in the order of the requests. -/
def requests (events : List Event) : List (Option Bytes) :=
  events.filterMap fun
    | .request result => some result
    | _ => none

/-- The outcomes of the handlers whose calls are still queued. -/
def results (manager : Manager) : List (Option Bytes) := manager.handlerCalls.map (·.result)

@[simp] lemma requests_nil : requests [] = [] := rfl

@[simp] lemma requests_append (es fs : List Event) :
    requests (es ++ fs) = requests es ++ requests fs := List.filterMap_append

lemma requests_cons (e : Event) (es : List Event) :
    requests (e :: es) = requests [e] ++ requests es := requests_append [e] es

/-! ## Single steps -/

/-- If a response is written in this step then `write_some` accepts all of it. -/
def WritesAll : Event → Manager → Prop
  | .poll accepted, manager =>
    ∀ bytes rest, manager.handlerCalls = ⟨some bytes, true⟩ :: rest → bytes.length ≤ accepted
  | _, _ => True

/-- Whether a turn of the loop writes all of a response can be read off the first call. -/
instance decidableWritesAll : ∀ (event : Event) (manager : Manager), Decidable (WritesAll event manager)
  | .request _, _ => isTrue trivial
  | .finish _, _ => isTrue trivial
  | .poll accepted, manager =>
      match h : manager.handlerCalls with
      | ⟨some bytes, true⟩ :: _ =>
          decidable_of_iff (bytes.length ≤ accepted) (by simp [WritesAll, h])
      | ⟨some _, false⟩ :: _ => isTrue (by simp [WritesAll, h])
      | ⟨none, _⟩ :: _ => isTrue (by simp [WritesAll, h])
      | [] => isTrue (by simp [WritesAll, h])

/-- What one turn of the loop can do: it leaves the loop, takes a response, or finds none. -/
lemma poll_cases {accepted : ℕ} {m m' : Manager} (h : m.poll accepted = some m') :
    (∃ rest, m.handlerCalls = ⟨none, true⟩ :: rest ∧
      m' = { m with locked := true, running := false }) ∨
    (∃ bytes rest, m.handlerCalls = ⟨some bytes, true⟩ :: rest ∧
      (bytes ≠ [] → 1 ≤ accepted ∧ accepted ≤ bytes.length) ∧
      m' = { m with
        handlerCalls := rest
        written := m.written ++ [bytes].filter (· ≠ [])
        received := m.received ++ bytes.take accepted }) ∨
    ((∀ result rest, m.handlerCalls ≠ ⟨result, true⟩ :: rest) ∧ m' = m) := by
  unfold poll at h
  by_cases hrunning : m.running = true
  · rw [if_pos hrunning] at h
    split at h
    next result rest hcalls =>
      by_cases hlocked : m.locked = true
      · rw [if_pos hlocked] at h
        cases h
      rw [if_neg hlocked] at h
      rcases result with _ | bytes
      · exact Or.inl ⟨rest, hcalls, (Option.some.inj h).symm⟩
      refine Or.inr (Or.inl ⟨bytes, rest, hcalls, ?_⟩)
      simp only [writeSome] at h
      split_ifs at h with hempty haccepted
      · refine ⟨fun hne => absurd hempty hne, ?_⟩
        rw [← Option.some.inj h, hempty]
        simp
      · refine ⟨fun _ => haccepted, ?_⟩
        rw [← Option.some.inj h]
        simp [hempty]
    next hidle => exact Or.inr (Or.inr ⟨hidle, (Option.some.inj h).symm⟩)
  · rw [if_neg hrunning] at h
    cases h

/-- What a step can do. -/
lemma step_cases {event : Event} {m m' : Manager} (h : step event m = some m') :
    (∃ result, event = .request result ∧ m.locked = false ∧
      m' = { m with handlerCalls := m.handlerCalls ++ [⟨result, false⟩] }) ∨
    (∃ i, event = .finish i ∧ m' = { m with
      handlerCalls := m.handlerCalls.modify i fun call => { call with ready := true } }) ∨
    (∃ accepted, event = .poll accepted ∧ m.poll accepted = some m') := by
  rcases event with result | i | accepted
  · simp only [step, request] at h
    split_ifs at h with hlocked
    exact Or.inl ⟨result, rfl, Bool.eq_false_of_not_eq_true hlocked, (Option.some.inj h).symm⟩
  · simp only [step, finish] at h
    split_ifs at h
    exact Or.inr (Or.inl ⟨i, rfl, (Option.some.inj h).symm⟩)
  · exact Or.inr (Or.inr ⟨accepted, rfl, h⟩)

/-- A handler's end does not change its outcome. -/
lemma map_result_modify (calls : List HandlerCall) (i : ℕ) :
    (calls.modify i fun call => { call with ready := true }).map (·.result) =
      calls.map (·.result) := by
  induction calls generalizing i with
  | nil => simp
  | cons call calls ih =>
    rcases i with _ | i
    · simp
    · simpa using ih i

/-! ## Runs -/

/-- What a run has done with the responses: those that it took from the queue were written in the
order of the requests, and the client received no more bytes than they have. -/
structure Account (m m' : Manager) (asked : List (Option Bytes)) (sent : List Bytes)
    (bytes : Bytes) : Prop where
  results_eq : m.results ++ asked = sent.map some ++ m'.results
  written_eq : m'.written = m.written ++ sent.filter (· ≠ [])
  received_eq : m'.received = m.received ++ bytes
  length_le : bytes.length ≤ sent.flatten.length

/-- The account of one step. -/
lemma exists_account_step {event : Event} {m m' : Manager} (h : step event m = some m') :
    ∃ sent bytes, Account m m' (requests [event]) sent bytes ∧
      (WritesAll event m ↔ bytes = sent.flatten) := by
  rcases step_cases h with ⟨result, rfl, -, rfl⟩ | ⟨i, rfl, rfl⟩ | ⟨accepted, rfl, hpoll⟩
  · refine ⟨[], [], ⟨?_, by simp, by simp, by simp⟩, by simp [WritesAll]⟩
    simp [results, requests]
  · refine ⟨[], [], ⟨?_, by simp, by simp, by simp⟩, by simp [WritesAll]⟩
    simp [results, requests, map_result_modify]
  · rcases poll_cases hpoll with
      ⟨rest, hcalls, rfl⟩ | ⟨bytes, rest, hcalls, -, rfl⟩ | ⟨hidle, rfl⟩
    · refine ⟨[], [], ⟨?_, by simp, by simp, by simp⟩, by simp [WritesAll, hcalls]⟩
      simp [results, requests]
    · refine ⟨[bytes], bytes.take accepted, ⟨?_, rfl, rfl, by simp⟩, ?_⟩
      · simp [results, requests, hcalls]
      · simp [WritesAll, hcalls, List.take_eq_self_iff]
    · refine ⟨[], [], ⟨?_, by simp, by simp, by simp⟩, ?_⟩
      · simp [results, requests]
      · simp [WritesAll, hidle]

/-- Accounts of consecutive runs add up. -/
lemma Account.trans {m₁ m₂ m₃ : Manager} {asked asked' : List (Option Bytes)}
    {sent sent' : List Bytes} {bytes bytes' : Bytes} (h : Account m₁ m₂ asked sent bytes)
    (h' : Account m₂ m₃ asked' sent' bytes') :
    Account m₁ m₃ (asked ++ asked') (sent ++ sent') (bytes ++ bytes') where
  results_eq := by
    rw [← List.append_assoc, h.results_eq, List.append_assoc, h'.results_eq, List.map_append,
      List.append_assoc]
  written_eq := by
    rw [h'.written_eq, h.written_eq, List.filter_append, List.append_assoc]
  received_eq := by
    rw [h'.received_eq, h.received_eq, List.append_assoc]
  length_le := by
    have hle := h.length_le
    have hle' := h'.length_le
    rw [List.flatten_append, List.length_append, List.length_append]
    omega

/-- Two parts that are not too long make up the whole only if each is whole. -/
lemma append_eq_append_iff_of_length_le {α : Type*} {a b c d : List α}
    (hac : a.length ≤ c.length) (hbd : b.length ≤ d.length) :
    a ++ b = c ++ d ↔ a = c ∧ b = d := by
  constructor
  · intro h
    have hlength := congrArg List.length h
    rw [List.length_append, List.length_append] at hlength
    exact List.append_inj h (by omega)
  · rintro ⟨rfl, rfl⟩
    rfl

/-- The account of a run. -/
lemma exists_account {es : List Event} {m m' : Manager} (h : Run.exec step es m = some m') :
    ∃ sent bytes, Account m m' (requests es) sent bytes ∧
      (Run.Meets step WritesAll es m ↔ bytes = sent.flatten) := by
  induction es generalizing m with
  | nil =>
    obtain rfl : m = m' := Option.some.inj h
    refine ⟨[], [], ⟨by simp, by simp, by simp, by simp⟩, ?_⟩
    simp [Run.Meets]
  | cons e es ih =>
    obtain ⟨t, hstep, hrest⟩ := Run.exec_cons_eq_some.mp h
    obtain ⟨sent, bytes, haccount, hall⟩ := exists_account_step hstep
    obtain ⟨sent', bytes', haccount', hall'⟩ := ih hrest
    refine ⟨sent ++ sent', bytes ++ bytes', ?_, ?_⟩
    · rw [requests_cons]
      exact haccount.trans haccount'
    · rw [List.flatten_append,
        append_eq_append_iff_of_length_le haccount.length_le haccount'.length_le, ← hall, ← hall',
        Run.meets_cons, hstep]
      simp

/-- Nothing has been thrown, and no queued handler is going to throw. -/
structure Undisturbed (m : Manager) : Prop where
  locked : m.locked = false
  running : m.running = true
  returns : none ∉ m.results

lemma undisturbed_init : Undisturbed init := ⟨rfl, rfl, by decide⟩

/-- A step without a handler that throws. -/
lemma Undisturbed.step {event : Event} {m m' : Manager} (hm : Undisturbed m)
    (hevent : none ∉ requests [event]) (h : Manager.step event m = some m') : Undisturbed m' := by
  obtain ⟨sent, bytes, haccount, -⟩ := exists_account_step h
  have hreturns : none ∉ m'.results := by
    intro hnone
    have hmem : none ∈ m.results ++ requests [event] := by
      rw [haccount.results_eq]
      exact List.mem_append_right _ hnone
    rcases List.mem_append.mp hmem with hold | hnew
    · exact hm.returns hold
    · exact hevent hnew
  rcases step_cases h with ⟨result, rfl, -, rfl⟩ | ⟨i, rfl, rfl⟩ | ⟨accepted, rfl, hpoll⟩
  · exact ⟨hm.locked, hm.running, hreturns⟩
  · exact ⟨hm.locked, hm.running, hreturns⟩
  · rcases poll_cases hpoll with
      ⟨rest, hcalls, rfl⟩ | ⟨bytes, rest, hcalls, -, rfl⟩ | ⟨-, rfl⟩
    · exact absurd (by simp [results, hcalls]) hm.returns
    · exact ⟨hm.locked, hm.running, hreturns⟩
    · exact ⟨hm.locked, hm.running, hreturns⟩

/-- A run without handlers that throw. -/
lemma Undisturbed.exec {es : List Event} {m m' : Manager} (hm : Undisturbed m)
    (hes : none ∉ requests es) (h : Run.exec Manager.step es m = some m') : Undisturbed m' := by
  induction es generalizing m with
  | nil => exact Option.some.inj h ▸ hm
  | cons e es ih =>
    obtain ⟨t, hstep, hrest⟩ := Run.exec_cons_eq_some.mp h
    rw [requests_cons, List.mem_append, not_or] at hes
    exact ih (hm.step hes.1 hstep) hes.2 hrest

/-- A handler has finished, and `write_some` may accept this many bytes of its response. -/
def Accepts (call : HandlerCall) (accepted : ℕ) : Prop :=
  call.ready = true ∧
    ∀ bytes, call.result = some bytes → bytes ≠ [] → 1 ≤ accepted ∧ accepted ≤ bytes.length

/-- A turn of the loop takes the first response when its handler has finished. -/
lemma Undisturbed.exists_poll {m : Manager} (hm : Undisturbed m) {call : HandlerCall}
    {rest : List HandlerCall} {accepted : ℕ} (hcalls : m.handlerCalls = call :: rest)
    (haccepts : Accepts call accepted) :
    ∃ m', Manager.step (.poll accepted) m = some m' ∧ m'.handlerCalls = rest := by
  obtain ⟨result, ready⟩ := call
  obtain rfl : ready = true := haccepts.1
  rcases result with _ | bytes
  · exact absurd (by simp [results, hcalls]) hm.returns
  by_cases hempty : bytes = []
  · exact ⟨{ m with handlerCalls := rest },
      by simp [Manager.step, poll, hm.running, hm.locked, hcalls, hempty], rfl⟩
  · have hbounds := haccepts.2 bytes rfl hempty
    exact ⟨{ m with
        handlerCalls := rest
        written := m.written ++ [bytes]
        received := m.received ++ bytes.take accepted },
      by simp [Manager.step, poll, writeSome, hm.running, hm.locked, hcalls, hempty, hbounds], rfl⟩

/-- As many turns of the loop as there are queued calls take all of them, once their handlers have
finished.  By induction on the turns. -/
lemma Undisturbed.exists_exec_polls {m : Manager} (hm : Undisturbed m) {accepted : List ℕ}
    (haccepts : List.Forall₂ Accepts m.handlerCalls accepted) :
    ∃ m', Run.exec Manager.step (accepted.map .poll) m = some m' ∧ m'.handlerCalls = [] := by
  induction accepted generalizing m with
  | nil => exact ⟨m, rfl, List.forall₂_nil_right_iff.mp haccepts⟩
  | cons n accepted ih =>
    obtain ⟨call, rest, hcall, hrest, hcalls⟩ := List.forall₂_cons_right_iff.mp haccepts
    obtain ⟨t, hstep, ht⟩ := hm.exists_poll hcalls hcall
    obtain ⟨m', hexec, hempty⟩ := ih (hm.step (by simp [requests]) hstep) (ht ▸ hrest)
    exact ⟨m', Run.exec_cons_eq_some.mpr ⟨t, hstep, hexec⟩, hempty⟩

/-! ## Order and completeness -/

/-- The responses of the requests whose calls are no longer queued, in the order of the requests. -/
def answered (events : List Event) (manager : Manager) : List Bytes :=
  ((requests events).take
    ((requests events).length - manager.handlerCalls.length)).reduceOption

/-- The client has received the responses in the order of the requests and each in full: those of
all requests when none is queued any more.  If no handler throws and the queued ones have finished,
then none is queued any more after as many turns of the loop as there are queued calls, however many
bytes `write_some` accepts. -/
structure Delivers (events : List Event) (manager : Manager) : Prop where
  received_eq : manager.received = (answered events manager).flatten
  all_received : manager.handlerCalls = [] →
    manager.received = (requests events).reduceOption.flatten
  all_taken : none ∉ requests events →
    ∀ accepted, List.Forall₂ Accepts manager.handlerCalls accepted →
      ∃ manager', Run.exec step (accepted.map .poll) manager = some manager' ∧
        manager'.handlerCalls = []

lemma reduceOption_map_some (l : List Bytes) : (l.map some).reduceOption = l := by
  simp [List.reduceOption, List.filterMap_map]

/-- What was taken from the queue of a new connection are the first responses. -/
lemma Account.answered_eq {es : List Event} {m : Manager} {sent : List Bytes} {bytes : Bytes}
    (h : Account init m (requests es) sent bytes) : answered es m = sent := by
  have hrequests : requests es = sent.map some ++ m.results := h.results_eq
  have hlength : (requests es).length - m.handlerCalls.length = (sent.map some).length := by
    rw [hrequests, List.length_append, results, List.length_map, List.length_map]
    omega
  rw [answered, hlength, hrequests, List.take_left, reduceOption_map_some]

/-- **The responses of a connection.**  In every run, whatever the order in which the handlers
finish, the client receives the responses in the order of the requests and in full exactly when each
`write_some` of the run accepts all of its buffer. -/
theorem delivers_iff {es : List Event} {m : Manager} (h : Run.exec step es init = some m) :
    Delivers es m ↔ Run.Meets step WritesAll es init := by
  obtain ⟨sent, bytes, haccount, hall⟩ := exists_account h
  have hanswered := haccount.answered_eq
  have hreceived : m.received = bytes := haccount.received_eq
  rw [hall, ← hreceived, ← hanswered]
  constructor
  · intro hdelivers
    exact hdelivers.received_eq
  · intro hflatten
    refine ⟨hflatten, ?_, ?_⟩
    · intro hempty
      rw [hflatten, answered, hempty, List.length_nil, Nat.sub_zero, List.take_length]
    · intro hreturns accepted haccepts
      exact (undisturbed_init.exec hreturns h).exists_exec_polls haccepts

/-- Two requests, the second of which is answered first. -/
theorem delivers_two_requests :
    ∃ m, Run.exec step [.request (some [1, 2]), .request (some [3]), .finish 1, .poll 0, .finish 0,
        .poll 2, .poll 1] init = some m ∧
      (Delivers [.request (some [1, 2]), .request (some [3]), .finish 1, .poll 0, .finish 0,
          .poll 2, .poll 1] m ↔
        Run.Meets step WritesAll [.request (some [1, 2]), .request (some [3]), .finish 1, .poll 0,
          .finish 0, .poll 2, .poll 1] init) ∧
      m.received = [1, 2, 3] :=
  ⟨⟨[], false, true, [[1, 2], [3]], [1, 2, 3]⟩, by decide, delivers_iff (by decide), by decide⟩

/-- A response of two bytes of which `write_some` accepts one. -/
theorem part_of_response_received :
    ∃ m, Run.exec step [.request (some [1, 2]), .finish 0, .poll 1] init = some m ∧
      ¬ Delivers [.request (some [1, 2]), .finish 0, .poll 1] m := by
  refine ⟨⟨[], false, true, [[1, 2]], [1]⟩, by decide, ?_⟩
  intro hdelivers
  exact absurd (hdelivers.all_received rfl) (by decide)

/-! ## Handlers that throw -/

/-- Whichever of the handlers throw, the other requests of a connection are not affected: in every
run with these requests the mutex is free, a further request can be queued, and the run can go on
without a further request until the responses of all the handlers that return have been written, in
the order of the requests. -/
structure Isolated (calls : List (Option Bytes)) : Prop where
  unlocked : ∀ es m, requests es = calls → Run.exec step es init = some m → m.locked = false
  queues : ∀ es m, requests es = calls → Run.exec step es init = some m →
    ∀ result, ∃ m', step (.request result) m = some m'
  answers : ∀ es m, requests es = calls → Run.exec step es init = some m →
    ∃ fs m', requests fs = [] ∧ Run.exec step fs m = some m' ∧
      m'.written = calls.reduceOption.filter (· ≠ [])

/-- The first queued call is finished and taken. -/
lemma exec_finish_poll {m : Manager} {bytes : Bytes} {ready : Bool} {rest : List HandlerCall}
    (hrunning : m.running = true) (hlocked : m.locked = false)
    (hcalls : m.handlerCalls = ⟨some bytes, ready⟩ :: rest) :
    Run.exec step [.finish 0, .poll bytes.length] m =
      some { m with
        handlerCalls := rest
        written := m.written ++ [bytes].filter (· ≠ [])
        received := m.received ++ bytes } := by
  rcases bytes with _ | ⟨b, bytes⟩
  · simp [Run.exec, step, finish, poll, hcalls, hrunning, hlocked]
  · simp [Run.exec, step, finish, poll, writeSome, hcalls, hrunning, hlocked]

/-- The queued calls in front of `tail` are finished and taken one after the other. -/
lemma exists_exec_drain {m : Manager} {sent : List Bytes} {tail : List (Option Bytes)}
    (hrunning : m.running = true) (hlocked : m.locked = false)
    (hresults : m.results = sent.map some ++ tail) :
    ∃ fs m', requests fs = [] ∧ Run.exec step fs m = some m' ∧ m'.results = tail ∧
      m'.running = true ∧ m'.locked = false ∧
      m'.written = m.written ++ sent.filter (· ≠ []) := by
  induction sent generalizing m with
  | nil => exact ⟨[], m, rfl, rfl, hresults, hrunning, hlocked, by simp⟩
  | cons bytes sent ih =>
    obtain ⟨⟨result, ready⟩, rest, hcalls, rfl, hrest⟩ := List.map_eq_cons_iff.mp hresults
    have hfirst := exec_finish_poll hrunning hlocked hcalls
    obtain ⟨fs, m', hfs, hexec, hspec, hrunning', hlocked', hwritten⟩ :=
      ih (m := { m with
        handlerCalls := rest
        written := m.written ++ [bytes].filter (· ≠ [])
        received := m.received ++ bytes }) hrunning hlocked hrest
    refine ⟨[.finish 0, .poll bytes.length] ++ fs, m', ?_,
      Run.exec_append_eq_some.mpr ⟨_, hfirst, hexec⟩, hspec, hrunning', hlocked', ?_⟩
    · rw [requests_append, hfs]
      rfl
    · rw [hwritten, List.append_assoc, ← List.filter_append, List.singleton_append]

/-- Requests can be queued one after the other while the mutex is free. -/
lemma exists_exec_requests {m : Manager} (hlocked : m.locked = false)
    (calls : List (Option Bytes)) :
    ∃ m', Run.exec step (calls.map .request) m = some m' ∧ m'.results = m.results ++ calls ∧
      m'.running = m.running ∧ m'.locked = false := by
  induction calls generalizing m with
  | nil => exact ⟨m, rfl, by simp, rfl, hlocked⟩
  | cons result calls ih =>
    have hstep : step (.request result) m =
        some { m with handlerCalls := m.handlerCalls ++ [⟨result, false⟩] } := by
      simp [step, request, hlocked]
    obtain ⟨m', hexec, hresults, hrunning, hlocked'⟩ :=
      ih (m := { m with handlerCalls := m.handlerCalls ++ [⟨result, false⟩] }) hlocked
    refine ⟨m', Run.exec_cons_eq_some.mpr ⟨_, hstep, hexec⟩, ?_, hrunning, hlocked'⟩
    rw [hresults]
    simp [results]

lemma requests_map_request (calls : List (Option Bytes)) :
    requests (calls.map .request) = calls := by
  simp [requests, List.filterMap_map]

/-- The first handler that throws. -/
lemma exists_eq_map_some_append {calls : List (Option Bytes)} (h : none ∈ calls) :
    ∃ (sent : List Bytes) (tail : List (Option Bytes)),
      calls = sent.map some ++ none :: tail := by
  induction calls with
  | nil => cases h
  | cons result calls ih =>
    rcases result with _ | bytes
    · exact ⟨[], calls, rfl⟩
    · obtain ⟨sent, tail, rfl⟩ := ih (by simpa using h)
      exact ⟨bytes :: sent, tail, rfl⟩

lemma eq_map_some_of_notMem {calls : List (Option Bytes)} (h : none ∉ calls) :
    calls = calls.reduceOption.map some := by
  induction calls with
  | nil => rfl
  | cons result calls ih =>
    rcases result with _ | bytes
    · exact absurd List.mem_cons_self h
    · rw [List.reduceOption_cons_of_some, List.map_cons, ← ih (by simpa using h)]

/-- A handler that throws leaves the mutex locked, in the run in which all the requests come first. -/
lemma exists_exec_locked {calls : List (Option Bytes)} (h : none ∈ calls) :
    ∃ es m, requests es = calls ∧ Run.exec step es init = some m ∧ m.locked = true := by
  obtain ⟨sent, tail, rfl⟩ := exists_eq_map_some_append h
  obtain ⟨m₁, hexec₁, hresults₁, hrunning₁, hlocked₁⟩ :=
    exists_exec_requests (m := init) rfl (sent.map some ++ none :: tail)
  obtain ⟨fs, m₂, hfs, hexec₂, hresults₂, hrunning₂, hlocked₂, -⟩ :=
    exists_exec_drain hrunning₁ hlocked₁ hresults₁
  obtain ⟨⟨result, ready⟩, rest, hcalls, rfl, -⟩ := List.map_eq_cons_iff.mp hresults₂
  have hthrow : Run.exec step [.finish 0, .poll 0] m₂ =
      some { m₂ with
        handlerCalls := ⟨none, true⟩ :: rest
        locked := true
        running := false } := by
    simp [Run.exec, step, finish, poll, hcalls, hrunning₂, hlocked₂]
  refine ⟨(sent.map some ++ none :: tail).map .request ++ (fs ++ [.finish 0, .poll 0]), _, ?_,
    Run.exec_append_eq_some.mpr ⟨_, hexec₁, Run.exec_append_eq_some.mpr ⟨_, hexec₂, hthrow⟩⟩, rfl⟩
  rw [requests_append, requests_append, requests_map_request, hfs]
  simp [requests]

/-- **Handlers that throw.**  The requests of a connection are not affected by the handlers that
throw exactly when there is none. -/
theorem isolated_iff (calls : List (Option Bytes)) : Isolated calls ↔ none ∉ calls := by
  constructor
  · intro hisolated hnone
    obtain ⟨es, m, hes, hexec, hlocked⟩ := exists_exec_locked hnone
    have hunlocked := hisolated.unlocked es m hes hexec
    rw [hlocked] at hunlocked
    cases hunlocked
  · intro hnone
    have hundisturbed : ∀ es m, requests es = calls → Run.exec step es init = some m →
        Undisturbed m := by
      rintro es m rfl hexec
      exact undisturbed_init.exec hnone hexec
    refine ⟨fun es m hes hexec => (hundisturbed es m hes hexec).locked, ?_, ?_⟩
    · intro es m hes hexec result
      exact ⟨_, if_neg (by rw [(hundisturbed es m hes hexec).locked]; decide)⟩
    · intro es m hes hexec
      have hm := hundisturbed es m hes hexec
      obtain ⟨sent, bytes, haccount, -⟩ := exists_account hexec
      have hleft := eq_map_some_of_notMem hm.returns
      obtain ⟨fs, m', hfs, hexec', -, -, -, hwritten⟩ :=
        exists_exec_drain hm.running hm.locked (hleft.trans (List.append_nil _).symm)
      refine ⟨fs, m', hfs, hexec', ?_⟩
      have hcalls : calls = sent.map some ++ m.results := by
        rw [← hes]
        exact haccount.results_eq
      rw [hwritten, haccount.written_eq, hcalls, List.reduceOption_append, reduceOption_map_some,
        List.filter_append]
      rfl

/-- Two requests, and the handler of the first throws: the mutex stays locked, and the response of
the second is not taken from the queue. -/
theorem thrown_not_isolated : ¬ Isolated [none, some [7]] := by
  intro hisolated
  have hexec : Run.exec step [.request none, .request (some [7]), .finish 1, .finish 0, .poll 0]
      init = some ⟨[⟨none, true⟩, ⟨some [7], true⟩], true, false, [], []⟩ := by decide
  have hunlocked := hisolated.unlocked _ _ rfl hexec
  cases hunlocked

end Manager

end Api

end ChordPlusPlus
